import Supercache.OwnerCalls
import Supercache.Schedule

/-!
One load that returned a value against any number of puts of the same key. The
fill looks for a live value, mints a version and writes, in three sections. It
never overwrites a live value as long as the puts applied meanwhile come after
its mint and above it.
-/
namespace Supercache.LoadFill

open Wire Lru Owner Schedule

structure PutThread where
  value : Bytes
  ttl : ℤ
  state : Put

structure Sys where
  ks : KsRuntime
  fill : Fill
  puts : List PutThread

structure Load where
  key : Bytes
  value : Bytes
  ttl : ℤ

inductive Who where
  | fill
  | put (i : ℕ)

def step (c : Load) (s : Sys) (t : Turn Who) : Sys :=
  match t.who with
  | .fill =>
    let (ks, fill) := loadThrough c.key c.value c.ttl t.now t.walk s.ks s.fill
    { s with ks := ks, fill := fill }
  | .put i =>
    match s.puts[i]? with
    | none => s
    | some p =>
      let (ks, state) := putLocalApply c.key p.value p.ttl t.now t.walk s.ks p.state
      { s with ks := ks, puts := s.puts.set i { p with state := state } }

/-- A put that is applied while the fill is between its look and its write is
applied after the fill has minted, and with a higher version. -/
def InOrder (s : Sys) (t : Turn Who) : Prop :=
  ∀ i p ent, t.who = .put i → s.puts[i]? = some p → p.state = .minted ent →
    match s.fill with
    | .missed => False
    | .minted fill => fill.version < ent.version
    | _ => True

/-- Neither negative nor a tombstone. -/
def Positive (e : Entry) : Prop := e.isNegative = false ∧ e.isTombstone = false

def holdsLive (m : Mem) (now : ℤ) (key : Bytes) : Bool :=
  (m.lookup key).any fun it =>
    !it.entry.expired now && !it.entry.isNegative && !it.entry.isTombstone

/-- If this turn is a fill that takes effect, the store holds no live value. -/
def Respects (c : Load) (s : Sys) (t : Turn Who) : Prop :=
  ∀ fill, t.who = .fill → s.fill = .minted fill →
    (s.ks.store.perform t.now c.key (Store.acceptIfNewer c.key fill)).2 = true →
    holdsLive s.ks.store t.now c.key = false

/-- What the key may hold while the fill is on its way: nothing live until it has
minted, and then only entries at least as new. -/
def Yields (fill : Fill) (old : Option LruItem) : Prop :=
  match fill with
  | .missed => ∀ it, old = some it → ¬ Positive it.entry
  | .minted ent => ∀ it, old = some it → Positive it.entry → ent.version ≤ it.entry.version
  | _ => True

theorem tidy_yields (now : ℤ) (fill : Fill) : Tidy now (Yields fill) := by
  cases fill with
  | missed => exact tidy_of_entry now (P := fun e => ¬ Positive e) fun _ _ h => h
  | minted ent =>
    exact tidy_of_entry now (P := fun e => Positive e → ent.version ≤ e.version) fun _ _ h => h
  | start | rejected | finished => exact ⟨fun _ _ => trivial, fun _ _ _ => trivial⟩

theorem yields_none (fill : Fill) : Yields fill none := by
  cases fill <;> simp [Yields]

/-- A look that finds no live value leaves none. -/
theorem yields_get {c : Load} {m : Mem} {now : ℤ}
    (hmiss : (m.perform now c.key (Store.get c.key)).2.any (fun cur => !cur.isNegative) = false) :
    Yields .missed ((m.perform now c.key (Store.get c.key)).1.lookup c.key) := by
  rw [m.lookup_perform_of_not_evicts (looking_get c.key _ _).1]
  rw [Memory.perform_ret] at hmiss
  simp only [Memory.expected, if_true]
  cases hlook : m.lookup c.key with
  | none => simp [Store.get, Act.result, Yields]
  | some it =>
    rw [hlook] at hmiss
    cases hx : it.entry.expired now with
    | true =>
      rw [Store.get_of_expired (m.env now) it c.key hx]
      exact yields_none _
    | false =>
      cases ht : it.entry.isTombstone with
      | true =>
        rw [Store.get_of_tombstone (m.env now) it c.key hx ht]
        intro it' heq hpos
        simp only [Act.result, Option.some.injEq] at heq
        rw [← heq, Positive, ht] at hpos
        exact absurd hpos.2 (by simp)
      | false =>
        rw [Store.get_of_live (m.env now) it c.key hx ht] at hmiss ⊢
        intro it' heq hpos
        simp only [Store.result_touch, Option.some.injEq] at heq
        rw [← heq] at hpos
        simp only [Option.any_some, Bool.not_eq_false'] at hmiss
        exact absurd (hmiss.symm.trans hpos.1) (by simp)

variable {c : Load} {s : Sys} {t : Turn Who}

theorem yields_fill (h : Yields s.fill (s.ks.store.lookup c.key)) (hwho : t.who = .fill) :
    Yields (step c s t).fill ((step c s t).ks.store.lookup c.key) := by
  simp only [step, hwho]
  cases hfill : s.fill with
  | start =>
    simp only [loadThrough]
    split
    · trivial
    next hmiss =>
      exact yields_get (Bool.eq_false_iff.mpr hmiss)
  | missed =>
    rw [hfill] at h
    -- the entry minted is above nothing that matters: no live value is stored
    have hmissed := (tidy_yields t.now .missed).nextVersion t.walk c.key 0 s.ks h
    exact fun it hit hpos => absurd hpos (hmissed it hit)
  | minted ent =>
    simp only [loadThrough]
    split <;> trivial
  | rejected => trivial
  | finished stored => trivial

/-- A put in order leaves the fill the older one. -/
theorem yields_accept {i : ℕ} {p : PutThread} {ent : Entry}
    (h : Yields s.fill (s.ks.store.lookup c.key)) (horder : InOrder s t) (hwho : t.who = .put i)
    (hp : s.puts[i]? = some p) (hent : p.state = .minted ent) :
    Yields s.fill ((s.ks.store.perform t.now c.key
      (Store.acceptIfNewer c.key ent)).1.lookup c.key) := by
  have hbound := horder i p ent hwho hp hent
  rcases s.ks.store.lookup_perform t.now c.key (Store.acceptIfNewer c.key ent) c.key with
    heq | ⟨hnone, -⟩
  · rw [heq]
    simp only [Memory.expected, if_true]
    rcases Store.acceptIfNewer_result (s.ks.store.env t.now) c.key ent
      (s.ks.store.lookup c.key) with hsame | hstored
    · rw [hsame]
      exact h
    · rw [hstored]
      cases hfill : s.fill with
      | missed => simp [hfill] at hbound
      | minted fill =>
        simp only [hfill] at hbound
        intro it hit _
        rw [Option.some.injEq] at hit
        rw [← hit]
        exact hbound.le
      | start => trivial
      | rejected => trivial
      | finished stored => trivial
  · rw [hnone]
    exact yields_none _

theorem yields_put {i : ℕ} (h : Yields s.fill (s.ks.store.lookup c.key)) (horder : InOrder s t)
    (hwho : t.who = .put i) : Yields (step c s t).fill ((step c s t).ks.store.lookup c.key) := by
  have htidy := tidy_yields t.now s.fill
  have hpeek := htidy.looks ((looking_peek c.key).lookup s.ks.store t.now c.key c.key) h
  simp only [step, hwho]
  cases hp : s.puts[i]? with
  | none => exact h
  | some p =>
    simp only
    cases hstate : p.state with
    | start => exact htidy.nextVersion t.walk c.key 0 s.ks h
    | minted ent => exact yields_accept h horder hwho hp hstate
    | rejected ent => exact hpeek
    | recheck ent => exact hpeek
    | finished ent failed => exact h

/-- A fill that takes effect overwrites nothing live. -/
theorem respects_of_yields (h : Yields s.fill (s.ks.store.lookup c.key)) : Respects c s t := by
  intro fill hwho hfill hok
  refine Bool.eq_false_iff.mpr fun hlive => ?_
  obtain ⟨it, hit, hpos⟩ := (Option.any_eq_true _ _).mp hlive
  simp only [Bool.and_eq_true, Bool.not_eq_true'] at hpos
  obtain ⟨⟨hx, hn⟩, ht⟩ := hpos
  rw [hfill] at h
  have hle := h it hit ⟨hn, ht⟩
  rw [Memory.perform_ret, hit,
    Store.acceptIfNewer_of_le (s.ks.store.env t.now) it c.key hx hle] at hok
  exact Bool.false_ne_true hok

/-- In every interleaving of a fill with any number of puts, begun or not, in which
no put is applied between the look and the write of the fill except above its
version, the fill never overwrites a live value. -/
theorem fill_respects_puts (c : Load) (ks : KsRuntime) (puts : List PutThread)
    (turns : List (Turn Who)) (hrun : Along (step c) InOrder ⟨ks, .start, puts⟩ turns) :
    Along (step c) (Respects c) ⟨ks, .start, puts⟩ turns := by
  have hstart : Yields .start (ks.store.lookup c.key) := trivial
  refine Along.derive (I := fun s => Yields s.fill (s.ks.store.lookup c.key)) ?_ ?_ hstart hrun
  · intro s t h horder
    cases hwho : t.who with
    | fill => exact yields_fill h hwho
    | put i => exact yields_put h horder hwho
  · intro s t h _
    exact respects_of_yields h

/-- A put minted and applied after the fill's mint keeps its value. -/
theorem fill_respects_later_put :
    let c : Load := ⟨[107], [1], 0⟩
    let ks : KsRuntime := ⟨Memory.newMemory 1000 0, ∅, 0⟩
    let walk : Walk := ⟨[], []⟩
    Along (step c) (Respects c) ⟨ks, .start, [⟨[7], 0, .start⟩]⟩
      [⟨.fill, 1, walk⟩, ⟨.fill, 2, walk⟩, ⟨.put 0, 3, walk⟩, ⟨.put 0, 4, walk⟩,
        ⟨.fill, 5, walk⟩] := by
  intro c ks walk
  refine fill_respects_puts c ks [⟨[7], 0, .start⟩] _ ⟨nofun, nofun, ?_, ?_, nofun, trivial⟩
  · rintro i p ent ⟨⟩ ⟨⟩ ⟨⟩
  · rintro i p ent ⟨⟩ ⟨⟩ ⟨⟩
    exact Nat.one_lt_two

/-- A put applied between the look and the mint of the fill is overwritten. -/
theorem fill_overwrites_put :
    let c : Load := ⟨[107], [1], 0⟩
    let ks : KsRuntime := ⟨Memory.newMemory 1000 0, ∅, 0⟩
    let walk : Walk := ⟨[], []⟩
    ¬ Along (step c) (Respects c) ⟨ks, .start, [⟨[7], 0, .start⟩]⟩
      [⟨.fill, 1, walk⟩, ⟨.put 0, 2, walk⟩, ⟨.put 0, 3, walk⟩, ⟨.fill, 4, walk⟩,
        ⟨.fill, 5, walk⟩] := by
  rintro c ks walk ⟨-, -, -, -, hfill, -⟩
  have hnone := hfill ⟨[1], 2, 0, 0⟩ rfl (by decide +kernel) (by decide +kernel)
  exact absurd hnone (by decide +kernel)

end Supercache.LoadFill

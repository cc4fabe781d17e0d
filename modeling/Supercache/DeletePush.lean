import Supercache.OwnerCalls

/-!
One owner's delete against any number of list pushes on the same name. The
delete mints its version before it takes the store's lock, while every push
raises the stored version under that lock. The delete removes what was there as
long as the pushes in between have not raised the version past its own.
-/
namespace Supercache.DeletePush

open Wire Lru Owner

inductive Push where
  | start
  | gated (gate : ℕ) (expire : ℤ)
  | pushed
  | versioned (version : ℕ)
  | observed
  | finished (applied : Bool)
deriving DecidableEq

structure PushThread where
  left : Bool
  item : Bytes
  ttl : ℤ
  fanout : Bool
  state : Push

def pushVerb (left : Bool) (key item : Bytes) (gate : ℕ) (expire : ℤ) : Verb LruItem Bool :=
  if left then Store.lPush key item gate expire else Store.rPush key item gate expire

def pushStep (key : Bytes) (p : PushThread) (now : ℤ) (walk : Walk) (ks : KsRuntime) :
    KsRuntime × Push :=
  match p.state with
  | .start =>
    let (store, cur) := ks.store.perform now key Store.peekVersion
    ({ ks with store := store }, .gated (bump (cur.getD 0)) (expireAt now p.ttl))
  | .gated gate expire =>
    let (store, ok) := ks.store.perform now key (pushVerb p.left key p.item gate expire)
    ({ ks with store := store }, if ok then .pushed else .finished false)
  | .pushed =>
    let (store, ver) := ks.store.perform now key Store.peekVersion
    ({ ks with store := store }, .versioned (ver.getD 0))
  | .versioned version =>
    (ks.observeVersion now walk key version, if p.fanout then .observed else .finished true)
  | .observed =>
    let (store, _) := ks.store.perform now key (Store.peek key)
    ({ ks with store := store }, .finished true)
  | .finished applied => (ks, .finished applied)

inductive Delete where
  | start
  | minted (version : ℕ)
  | finished
deriving DecidableEq

/-- One locked section of `DeleteAsOwner`. The result of the versioned delete is
not looked at: the call reports success either way. -/
def deleteAsOwner (key : Bytes) (now : ℤ) (walk : Walk) (ks : KsRuntime) :
    Delete → KsRuntime × Delete
  | .start =>
    let (ks, version) := ks.nextVersion now walk key 0
    (ks, .minted version)
  | .minted version =>
    let (store, _) := ks.store.perform now key (Store.deleteIfVersion key version)
    ({ ks with store := store }, .finished)
  | .finished => (ks, .finished)

structure Sys where
  ks : KsRuntime
  delete : Delete
  pushes : List PushThread

inductive Who where
  | delete
  | push (i : ℕ)
deriving DecidableEq

def step (key : Bytes) (s : Sys) (t : Turn Who) : Sys :=
  match t.who with
  | .delete =>
    let (ks, delete) := deleteAsOwner key t.now t.walk s.ks s.delete
    { s with ks := ks, delete := delete }
  | .push i =>
    match s.pushes[i]? with
    | none => s
    | some p =>
      let (ks, state) := pushStep key p t.now t.walk s.ks
      { s with ks := ks, pushes := s.pushes.set i { p with state := state } }

def run (key : Bytes) (s : Sys) (turns : List (Turn Who)) : Sys := turns.foldl (step key) s

def appliedAt (key : Bytes) (s : Sys) (t : Turn Who) : List (Bool × Bytes) :=
  match t.who with
  | .delete => []
  | .push i =>
    match s.pushes[i]? with
    | none => []
    | some p =>
      match p.state with
      | .gated gate expire =>
        if (s.ks.store.perform t.now key (pushVerb p.left key p.item gate expire)).2 then
          [(p.left, p.item)]
        else []
      | _ => []

def applied (key : Bytes) (s : Sys) : List (Turn Who) → List (Bool × Bytes)
  | [] => []
  | t :: turns => appliedAt key s t ++ applied key (step key s t) turns

def pushOne (l : ListX.Items) (p : Bool × Bytes) : ListX.Items :=
  if p.1 then ListX.lPush l p.2 else ListX.rPush l p.2

def build (pushes : List (Bool × Bytes)) : ListX.Items := pushes.foldl pushOne ListX.new

def visible (m : Mem) (now : ℤ) (key : Bytes) : List Bytes :=
  (m.perform now key (Store.lRange 0 (-1))).2

/-- Every visible element comes from a push that the run applied. -/
def OnlyNew (key : Bytes) (s : Sys) (turns : List (Turn Who)) (now : ℤ) : Prop :=
  ∃ later, later <:+ applied key s turns ∧
    visible (run key s turns).ks.store now key = build later

section Turns

variable {key : Bytes} {s : Sys} {t : Turn Who}

theorem run_append (key : Bytes) (s : Sys) (ts us : List (Turn Who)) :
    run key s (ts ++ us) = run key (run key s ts) us :=
  List.foldl_append

/-- What a push leaves at its name: a new list of one element, or the old list
with one more. -/
inductive PushedOver (p : Bool × Bytes) (old : Option LruItem) (new : LruItem) : Prop
  | created (hlist : new.l.cache = some (build [p]))
    (hversion : new.entry.version = 1 ∨
      ∃ it, old = some it ∧ new.entry.version = bump it.entry.version)
  | extended (it : LruItem) (l : ListX.Items) (hold : old = some it)
    (ht : it.entry.isTombstone = false) (hload : lKind.load it = some l)
    (hlist : new.l.cache = some (pushOne l p))
    (hversion : new.entry.version = bump it.entry.version)

/-- A push that reports success has pushed; one that does not has left the name
alone or lost it. -/
theorem perform_push (m : Mem) (now : ℤ) (left : Bool) (key item : Bytes) (gate : ℕ) (expire : ℤ) :
    (m.perform now key (pushVerb left key item gate expire)).2 = true ∧
        (∃ new, (m.perform now key (pushVerb left key item gate expire)).1.lookup key = some new ∧
          PushedOver (left, item) (m.lookup key) new) ∨
      (m.perform now key (pushVerb left key item gate expire)).2 = false ∧
        ((m.perform now key (pushVerb left key item gate expire)).1.lookup key = m.lookup key ∨
          (m.perform now key (pushVerb left key item gate expire)).1.lookup key = none) := by
  have hmut : lKind.Mutated key expire Store.nextStored (fun l => some (pushOne l (left, item)))
      (m.lookup key) (pushVerb left key item gate expire (m.env now) (m.lookup key)) := by
    cases left <;> exact lKind.mutate_mutated ..
  have hlook := m.lookup_perform now key (pushVerb left key item gate expire) key
  simp only [Memory.expected, if_true] at hlook
  rw [Memory.perform_ret]
  generalize hplan : pushVerb left key item gate expire (m.env now) (m.lookup key) = plan at *
  generalize hold : m.lookup key = old at *
  generalize (m.perform now key (pushVerb left key item gate expire)).1.lookup key = after at *
  cases hmut with
  | refused _ tally =>
    refine Or.inr ⟨rfl, ?_⟩
    rcases hlook with heq | ⟨hnone, -⟩
    · exact Or.inl heq
    · exact Or.inr hnone
  | failed _ hf => simp at hf
  | created _ l base hf hbase =>
    rcases hlook with heq | ⟨hnone, -⟩
    · refine Or.inl ⟨by rw [heq]; rfl, _, heq, .created ?_ ?_⟩
      · exact congrArg some (Option.some.inj hf).symm
      · cases base with
        | none => exact Or.inl rfl
        | some v =>
          obtain ⟨it, hit, hv⟩ := hbase v rfl
          exact Or.inr ⟨it, hit, by rw [hv]; rfl⟩
    · exact Or.inr ⟨by rw [hnone]; rfl, Or.inr hnone⟩
  | committed it l l' ht hflag hload hf =>
    rcases hlook with heq | ⟨hnone, -⟩
    · refine Or.inl ⟨by rw [heq]; rfl, _, heq, .extended it l rfl ht hload ?_ rfl⟩
      exact congrArg some (Option.some.inj hf).symm
    · exact Or.inr ⟨by rw [hnone]; rfl, Or.inr hnone⟩

/-- A turn of a push either pushes or, as far as the name is concerned, only looks. -/
theorem push_turn (key : Bytes) (s : Sys) {i : ℕ} (hwho : t.who = .push i) :
    (appliedAt key s t = [] ∧ ∀ Q, Tidy t.now Q → Q none → Q (s.ks.store.lookup key) →
      Q ((step key s t).ks.store.lookup key)) ∨
    ∃ p new, appliedAt key s t = [p] ∧ (step key s t).ks.store.lookup key = some new ∧
      PushedOver p (s.ks.store.lookup key) new := by
  simp only [appliedAt, step, hwho]
  cases hp : s.pushes[i]? with
  | none => exact Or.inl ⟨rfl, fun Q _ _ hQ => hQ⟩
  | some p =>
    cases hstate : p.state with
    | gated gate expire =>
      simp only [pushStep, hstate]
      rcases perform_push s.ks.store t.now p.left key p.item gate expire with
        ⟨htrue, new, hnew, hover⟩ | ⟨hfalse, hlook⟩
      · exact Or.inr ⟨(p.left, p.item), new, if_pos htrue, hnew, hover⟩
      · refine Or.inl ⟨if_neg (by simp [hfalse]), fun Q _ hnone hQ => ?_⟩
        rcases hlook with hsame | hgone
        · rw [hsame]
          exact hQ
        · rw [hgone]
          exact hnone
    | start =>
      simp only [pushStep, hstate]
      exact Or.inl ⟨trivial, fun Q h _ =>
        h.looks (looking_peekVersion.lookup s.ks.store t.now key key)⟩
    | pushed =>
      simp only [pushStep, hstate]
      exact Or.inl ⟨trivial, fun Q h _ =>
        h.looks (looking_peekVersion.lookup s.ks.store t.now key key)⟩
    | versioned version =>
      simp only [pushStep, hstate]
      exact Or.inl ⟨trivial, fun Q h _ => h.observeVersion t.walk key version s.ks⟩
    | observed =>
      simp only [pushStep, hstate]
      exact Or.inl
        ⟨trivial, fun Q h _ => h.looks ((looking_peek key).lookup s.ks.store t.now key key)⟩
    | finished ok =>
      simp only [pushStep, hstate]
      exact Or.inl ⟨trivial, fun Q _ _ hQ => hQ⟩

theorem bump_le (v : ℕ) : bump v ≤ v + 1 := Nat.mod_le _ _

/-- Each applied push raises the stored version by one at most. -/
theorem below_run (turns : List (Turn Who)) (hpush : ∀ t ∈ turns, t.who ≠ .delete) {bound : ℕ}
    (hs : Below (bound + 1) (s.ks.store.lookup key)) :
    Below (bound + (applied key s turns).length + 1) ((run key s turns).ks.store.lookup key) := by
  induction turns generalizing s bound with
  | nil => exact hs
  | cons t turns ih =>
    rw [List.forall_mem_cons] at hpush
    obtain ⟨i, hwho⟩ : ∃ i, t.who = .push i := by
      cases hwho : t.who with
      | delete => exact absurd hwho hpush.1
      | push i => exact ⟨i, rfl⟩
    rcases push_turn key s hwho with ⟨hnil, hlook⟩ | ⟨p, new, hone, hnew, hover⟩
    · have hstep := ih hpush.2 (hlook _ (tidy_below t.now _) (by simp [Below]) hs)
      simp only [applied, hnil, List.nil_append]
      exact hstep
    · have hversion : Below (bound + 1 + 1) ((step key s t).ks.store.lookup key) := by
        intro it hit
        rw [hnew, Option.some.injEq] at hit
        rw [← hit]
        cases hover with
        | created hlist hversion =>
          rcases hversion with hone | ⟨it, hold, hbump⟩
          · omega
          · have := hs it hold
            have := bump_le it.entry.version
            omega
        | extended it l hold ht hload hlist hbump =>
          have := hs it hold
          have := bump_le it.entry.version
          omega
      have hstep := ih hpush.2 hversion
      simp only [applied, hone, List.length_append, List.length_singleton]
      rw [show bound + (1 + (applied key (step key s t) turns).length) + 1 =
        bound + 1 + (applied key (step key s t) turns).length + 1 by omega]
      exact hstep

/-- The name holds a tombstone or the list of the given pushes. -/
def Holds (later : List (Bool × Bytes)) (old : Option LruItem) : Prop :=
  ∀ it, old = some it → it.entry.isTombstone = true ∨ it.l.cache = some (build later)

theorem tidy_holds (now : ℤ) (later : List (Bool × Bytes)) : Tidy now (Holds later) where
  flush := by
    intro it h it' heq
    rw [Option.some.injEq] at heq
    subst heq
    obtain ⟨blob, hblob⟩ := it.entry_flush
    have hcache : it.flush.1.l.cache = it.l.cache :=
      congrArg (fun c => c.2.2.2.1) it.caches_flush
    rw [hblob, hcache]
    exact h it rfl
  expire := fun _ _ _ _ heq => absurd heq (by simp)

variable {later : List (Bool × Bytes)} {m : Mem}

/-- After a push the name holds the new element, behind what it held of the others. -/
theorem PushedOver.holds {p : Bool × Bytes} {old : Option LruItem} {new : LruItem}
    (h : PushedOver p old new) (hold : Holds later old) :
    Holds [p] (some new) ∨ Holds (later ++ [p]) (some new) := by
  cases h with
  | created hlist hversion =>
    refine Or.inl fun it heq => Or.inr ?_
    rw [← Option.some.inj heq]
    exact hlist
  | extended it l hit ht hload hlist hversion =>
    refine Or.inr fun it' heq => Or.inr ?_
    rw [← Option.some.inj heq, hlist]
    rcases hold it hit with htomb | hcache
    · exact absurd (htomb.symm.trans ht) (by simp)
    · have hl : some (build later) = some l := by
        rw [← hload, Kind.load]
        simp only [lKind, hcache]
      rw [← Option.some.inj hl]
      simp [build]

/-- Once a delete is through, the name only ever holds elements pushed after it. -/
theorem holds_run (turns : List (Turn Who)) (hdone : s.delete = .finished)
    (hs : Holds later (s.ks.store.lookup key)) : ∃ later', later' <:+ later ++ applied key s turns ∧
      Holds later' ((run key s turns).ks.store.lookup key) := by
  induction turns generalizing s later with
  | nil => exact ⟨later, by simp [applied], hs⟩
  | cons t turns ih =>
    cases hwho : t.who with
    | delete =>
      have hstep : step key s t = s := by
        simp only [step, hwho, hdone, deleteAsOwner]
        rw [← hdone]
      have happ : appliedAt key s t = [] := by simp [appliedAt, hwho]
      obtain ⟨later', hsuffix, hlater'⟩ := ih hdone hs
      refine ⟨later', ?_, ?_⟩
      · simpa only [applied, happ, hstep, List.nil_append] using hsuffix
      · change Holds later' ((run key (step key s t) turns).ks.store.lookup key)
        rw [hstep]
        exact hlater'
    | push i =>
      have hdone' : (step key s t).delete = .finished := by
        simp only [step, hwho]
        split <;> exact hdone
      rcases push_turn key s hwho with
        ⟨hnil, hlook⟩ | ⟨p, new, hone, hnew, hover⟩
      · simp only [applied, hnil, List.nil_append]
        exact ih hdone' (hlook _ (tidy_holds t.now later) (by simp [Holds]) hs)
      · simp only [applied, hone]
        rcases hover.holds hs with hfirst | hmore
        · rw [← hnew] at hfirst
          obtain ⟨later', hsuffix, hlater'⟩ := ih hdone' hfirst
          exact ⟨later', hsuffix.trans (List.suffix_append _ _), hlater'⟩
        · rw [← hnew] at hmore
          obtain ⟨later', hsuffix, hlater'⟩ := ih hdone' hmore
          exact ⟨later', by simpa using hsuffix, hlater'⟩

/-- A delete that is not below what is stored leaves a tombstone. -/
theorem holds_delete {version : ℕ} (hbelow : Below (version + 1) (m.lookup key)) (now : ℤ) :
    Holds [] ((m.perform now key (Store.deleteIfVersion key version)).1.lookup key) := by
  have htomb : ∀ it, it.entry = Store.tombstone (m.env now) version →
      Holds [] (some it) := by
    intro it hit it' heq
    rw [← Option.some.inj heq, hit]
    refine Or.inl ?_
    simp only [Store.tombstone, Entry.isTombstone, Entry.has]
    decide
  rcases m.lookup_perform now key (Store.deleteIfVersion key version) key with heq | ⟨hnone, -⟩
  · rw [heq]
    simp only [Memory.expected, if_true, Store.deleteIfVersion]
    cases hlook : m.lookup key with
    | none => exact htomb _ rfl
    | some it =>
      have hle := hbelow it hlook
      simp only
      have hfresh : ¬ version < (entry it).version := by
        change ¬ version < it.entry.version
        omega
      rw [if_neg fun hstale => hfresh hstale.2]
      exact htomb _ rfl
  · rw [hnone]
    simp [Holds]

theorem visible_of_holds (h : Holds later (m.lookup key)) (now : ℤ) :
    ∃ later', later' <:+ later ∧ visible m now key = build later' := by
  have hmiss : ∃ later', later' <:+ later ∧ ([] : List Bytes) = build later' :=
    ⟨[], List.nil_suffix, rfl⟩
  unfold visible
  rw [Memory.perform_ret]
  cases hlook : m.lookup key with
  | none => exact hmiss
  | some it =>
    simp only [Store.lRange, Kind.read]
    split
    · exact hmiss
    · by_cases hdead : it.entry.isTombstone = true ∨ (!it.entry.has lKind.flag) = true
      · rw [if_pos hdead]
        exact hmiss
      · rw [if_neg hdead]
        rw [not_or] at hdead
        have hcache := (h it hlook).resolve_left hdead.1
        simp only [lKind, hcache]
        exact ⟨later, List.suffix_refl _, rangeOf_all _⟩

theorem delete_run (turns : List (Turn Who)) (hpush : ∀ t ∈ turns, t.who ≠ .delete) :
    (run key s turns).delete = s.delete := by
  induction turns generalizing s with
  | nil => rfl
  | cons t turns ih =>
    rw [List.forall_mem_cons] at hpush
    refine (ih hpush.2).trans ?_
    cases hwho : t.who with
    | delete => exact absurd hwho hpush.1
    | push i =>
      simp only [step, hwho]
      split <;> rfl

end Turns

/-- In every interleaving of a delete with pushes, begun or not, in which the pushes
applied between the two sections of the delete do not use up the distance from the
stored version to the minted one, all that is visible in the end was pushed after the
delete. -/
theorem delete_removes (key : Bytes) (ks : KsRuntime) (pushes : List PushThread)
    (pre mid post : List (Turn Who)) (t₁ t₂ : Turn Who) (hpre : ∀ t ∈ pre, t.who ≠ .delete)
    (h₁ : t₁.who = .delete) (hmid : ∀ t ∈ mid, t.who ≠ .delete) (h₂ : t₂.who = .delete)
    (hroom : (run key ⟨ks, .start, pushes⟩ pre).ks.counter t₁.now key + 1 < 2 ^ 64)
    (hfew : storedVersion t₁.now ((run key ⟨ks, .start, pushes⟩ pre).ks.store.lookup key) +
        (applied key (step key (run key ⟨ks, .start, pushes⟩ pre) t₁) mid).length ≤
      (run key ⟨ks, .start, pushes⟩ pre).ks.counter t₁.now key + 1) (now : ℤ) :
    OnlyNew key (run key ⟨ks, .start, pushes⟩ (pre ++ t₁ :: (mid ++ [t₂]))) post now := by
  generalize hs : (⟨ks, .start, pushes⟩ : Sys) = s at *
  generalize hs₁ : run key s pre = s₁ at *
  have hstart : s₁.delete = .start := by
    rw [← hs₁, delete_run pre hpre, ← hs]
  -- the mint
  generalize hversion : (s₁.ks.nextVersion t₁.now t₁.walk key 0).2 = version
  have hmint : (step key s₁ t₁).delete = .minted version := by
    simp only [step, h₁, hstart, deleteAsOwner, hversion]
  have hminted : version = s₁.ks.counter t₁.now key + 1 := by
    rw [← hversion, nextVersion_version, Nat.max_zero, bump_of_lt hroom]
  have hbelow₁ : Below (storedVersion t₁.now (s₁.ks.store.lookup key) + 1)
      ((step key s₁ t₁).ks.store.lookup key) := by
    simp only [step, h₁, hstart, deleteAsOwner]
    exact below_mint t₁.now t₁.walk key 0 s₁.ks
  -- the pushes in between
  generalize hs₂ : run key (step key s₁ t₁) mid = s₂
  have hbelow₂ : Below (version + 1) (s₂.ks.store.lookup key) := by
    have hrun := below_run mid hmid hbelow₁
    rw [hs₂] at hrun
    intro it hit
    have := hrun it hit
    omega
  have hdelete₂ : s₂.delete = .minted version := by
    rw [← hs₂, delete_run mid hmid, hmint]
  -- the tombstone, and what comes after it
  have hholds : Holds [] ((step key s₂ t₂).ks.store.lookup key) := by
    simp only [step, h₂, hdelete₂, deleteAsOwner]
    exact holds_delete hbelow₂ t₂.now
  have hdone : (step key s₂ t₂).delete = .finished := by
    simp only [step, h₂, hdelete₂, deleteAsOwner]
  have hend : run key s (pre ++ t₁ :: (mid ++ [t₂])) = step key s₂ t₂ := by
    rw [run_append, hs₁]
    change run key (step key s₁ t₁) (mid ++ [t₂]) = _
    rw [run_append, hs₂]
    rfl
  rw [hend]
  obtain ⟨later, hsuffix, hlater⟩ := holds_run post hdone hholds
  obtain ⟨later', hsuffix', hvisible⟩ := visible_of_holds hlater now
  exact ⟨later', hsuffix'.trans hsuffix, hvisible⟩

/-- One push between the two sections of a delete is deleted with the rest. -/
theorem delete_removes_one_push :
    let walk : Walk := ⟨[], []⟩
    let store : Mem := ((Memory.newMemory 1000 0).perform 0 [1] (Store.rPush [1] [97] 1 0)).1
    let s : Sys := ⟨⟨store, ∅, 0⟩, .start, [⟨false, [98], 0, false, .start⟩]⟩
    OnlyNew [1] (run [1] s [⟨.delete, 1, walk⟩, ⟨.push 0, 2, walk⟩, ⟨.push 0, 3, walk⟩,
      ⟨.delete, 4, walk⟩]) [] 5 := by
  intro walk store s
  exact delete_removes [1] ⟨store, ∅, 0⟩ [⟨false, [98], 0, false, .start⟩] []
    [⟨.push 0, 2, walk⟩, ⟨.push 0, 3, walk⟩] [] ⟨.delete, 1, walk⟩ ⟨.delete, 4, walk⟩ nofun rfl
    (by decide) rfl (by decide +kernel) (by decide +kernel) 5

/-- The push of one element completes, and a delete begins; two more pushes before
its second section, and the delete leaves all three elements. -/
theorem delete_lost_to_two_pushes :
    let walk : Walk := ⟨[], []⟩
    let push (item : Bytes) : PushThread := ⟨false, item, 0, false, .start⟩
    let s₀ : Sys := ⟨⟨Memory.newMemory 1000 0, ∅, 0⟩, .start, [push [97], push [98], push [99]]⟩
    let s₁ := run [1] s₀ ((List.range 4).map fun i => ⟨.push 0, i, walk⟩)
    let s₂ := run [1] s₁ [⟨.delete, 4, walk⟩, ⟨.push 1, 5, walk⟩, ⟨.push 1, 6, walk⟩,
      ⟨.push 2, 7, walk⟩, ⟨.push 2, 8, walk⟩, ⟨.delete, 9, walk⟩, ⟨.push 1, 10, walk⟩,
      ⟨.push 1, 11, walk⟩, ⟨.push 2, 12, walk⟩, ⟨.push 2, 13, walk⟩]
    s₁.delete = .start ∧ s₁.pushes.map PushThread.state = [.finished true, .start, .start] ∧
      s₂.delete = .finished ∧ (∀ p ∈ s₂.pushes, p.state = .finished true) ∧
      visible s₂.ks.store 14 [1] = [[97], [98], [99]] := by
  decide +kernel

end Supercache.DeletePush

import Supercache.OwnerCalls
import Supercache.SnapshotReplication
import Supercache.ItemReplication
import Supercache.Schedule

/-!
Several nodes taking puts of one key. Each mints versions from its own counter, so two nodes can
mint one version for two values; each then rejects the other's entry, and they never agree. In
runs where no such tie is accepted they agree once every entry has been delivered.
-/
namespace Supercache.Coordinators

open Wire Lru Latest Owner Schedule SnapshotReplication

variable {N : Type} [DecidableEq N]

structure PutCall (N : Type) where
  node : N
  value : Bytes
  ttl : ℤ
  stage : Put

structure Arrival (N : Type) where
  node : N
  ent : Entry
  applied : Bool
deriving DecidableEq

structure Sys (N : Type) where
  nodes : N → KsRuntime
  puts : List (PutCall N)
  /-- What the nodes have fanned out. -/
  sent : List (N × Entry)
  arrivals : List (Arrival N)

inductive Move (N : Type) where
  | put (i : ℕ)
  | arrive (node : N) (ent : Entry)
  | apply (i : ℕ)

def Move.put? : Move N → Option ℕ
  | put i => some i
  | _ => none

def minted? : Put → Option Entry
  | .minted ent => some ent
  | _ => none

structure Turn (N : Type) where
  move : Move N
  now : ℤ
  walk : Walk

def outgoing (old new : Put) : List Entry :=
  match old, new with
  | .minted _, .finished ent _ => [ent]
  | _, _ => []

def step (key : Bytes) (s : Sys N) (t : Turn N) : Sys N :=
  match t.move with
  | .put i =>
    match s.puts[i]? with
    | none => s
    | some p =>
      let (ks, stage) := putLocalApply key p.value p.ttl t.now t.walk (s.nodes p.node) p.stage
      { s with
        nodes := Function.update s.nodes p.node ks
        puts := s.puts.set i { p with stage := stage }
        sent := (outgoing p.stage stage).map (p.node, ·) ++ s.sent }
  | .arrive node ent =>
    -- An entry arrives any number of times at any node but its own.
    if s.sent.any fun m => m.1 ≠ node ∧ m.2 = ent then
      { s with
        nodes := Function.update s.nodes node
          ((s.nodes node).observeVersion t.now t.walk key ent.version)
        arrivals := s.arrivals ++ [⟨node, ent, false⟩] }
    else s
  | .apply i =>
    match s.arrivals[i]? with
    | some ⟨node, ent, false⟩ =>
      let ks := s.nodes node
      let store := (ks.store.perform t.now key (Store.acceptIfNewer key ent)).1
      { s with
        nodes := Function.update s.nodes node { ks with store := store }
        arrivals := s.arrivals.set i ⟨node, ent, true⟩ }
    | _ => s

def run (key : Bytes) (s : Sys N) (turns : List (Turn N)) : Sys N := turns.foldl (step key) s

def begin_ (nodes : N → KsRuntime) (puts : List (N × Bytes × ℤ)) : Sys N :=
  ⟨nodes, puts.map fun p => ⟨p.1, p.2.1, p.2.2, .start⟩, [], []⟩

/-- Everything fanned out has been applied at every other node. -/
def Delivered (s : Sys N) : Prop :=
  ∀ m ∈ s.sent, ∀ node, node ≠ m.1 → ⟨node, m.2, true⟩ ∈ s.arrivals

instance [Fintype N] (s : Sys N) : Decidable (Delivered s) := by
  unfold Delivered
  infer_instance

/-- A put that is about to be accepted has a version that no other node has fanned out for
another value. -/
def Untied (key : Bytes) (s : Sys N) (t : Turn N) : Prop :=
  ∀ i ∈ t.move.put?, ∀ p ∈ s.puts[i]?, ∀ ent ∈ minted? p.stage,
    Below ent.version ((s.nodes p.node).store.lookup key) →
    ∀ m ∈ s.sent, m.1 ≠ p.node → m.2.version = ent.version → m.2.value = ent.value

instance (key : Bytes) (s : Sys N) (t : Turn N) : Decidable (Untied key s t) := by
  unfold Untied
  infer_instance

section Accept

variable {T now : ℤ} {key : Bytes} {m : Mem} {ent : Entry}

/-- Nothing, or an item that does not expire before `T`. -/
def Lives (T : ℤ) (old : Option LruItem) : Prop :=
  ∀ it, old = some it → Entry.Lasts T it.entry.expireAt

theorem Lives.unexpired {it : LruItem} (h : Lives T (some it)) (hnow : now < T) :
    it.entry.expired now = false :=
  Entry.expired_of_lasts (h it rfl) hnow

/-- Looking at the store changes nothing of a living item that a reader can see. -/
theorem tidy_lives (hnow : now < T) (w : Option (ℕ × Bytes)) :
    Tidy now (fun old => Lives T old ∧ view old = w) where
  flush := by
    rintro it ⟨hlives, hview⟩
    refine ⟨?_, (view_flush it).trans hview⟩
    exact (tidy_of_entry now (P := fun e => Entry.Lasts T e.expireAt) fun _ _ h => h).flush
      it hlives
  expire := by
    rintro it hx ⟨hlives, -⟩
    rw [hlives.unexpired hnow] at hx
    exact absurd hx Bool.false_ne_true

theorem content_of_lives (hlives : Lives T (m.lookup key)) (hnow : now < T) :
    content m now key = view (m.lookup key) := by
  rw [content, Memory.perform_ret]
  cases hlook : m.lookup key with
  | none => rfl
  | some it =>
    rw [hlook] at hlives
    obtain ⟨blob, hblob⟩ := it.entry_flush
    have hversion : it.flush.1.entry.version = it.entry.version := by rw [hblob]
    rw [Store.peek_of_unexpired (m.env now) it key (hlives.unexpired hnow)]
    simp only [view, ← hversion]
    rfl

theorem lives_fresh (h : Entry.Lasts T ent.expireAt) : Lives T (some (fresh ent : LruItem)) := by
  intro it hit
  obtain rfl := Option.some.inj hit
  exact h

theorem view_fresh (ent : Entry) : view (some (fresh ent : LruItem)) = some (stamp ent) := rfl

/-- What an accept leaves, and when it accepts. -/
theorem accept_cases (hmax : m.cache.maxBytes ≤ 0) (hnow : now < T)
    (hlives : Lives T (m.lookup key)) :
    let r := m.perform now key (Store.acceptIfNewer key ent)
    (r.2 = true ∧ Below ent.version (m.lookup key) ∧ r.1.lookup key = some (fresh ent)) ∨
      (r.2 = false ∧ r.1.lookup key = m.lookup key ∧
        ∃ it, m.lookup key = some it ∧ ent.version ≤ it.entry.version) := by
  dsimp only
  rw [m.lookup_perform_of_unbounded hmax, Memory.expected, if_pos rfl, Memory.perform_ret]
  by_cases hbelow : Below ent.version (m.lookup key)
  · have hplan := Store.acceptIfNewer_of_newer (m.env now) key
      (Store.tooBig_of_unbounded hmax (entryCost key ent)) hbelow
    rw [hplan]
    exact Or.inl ⟨rfl, hbelow, Store.result_replace _ _ _⟩
  · simp only [Below, not_forall, Nat.not_lt] at hbelow
    obtain ⟨it, hit, hle⟩ := hbelow
    rw [hit] at hlives ⊢
    rw [Store.acceptIfNewer_of_le (m.env now) it key (hlives.unexpired hnow) hle]
    exact Or.inr ⟨rfl, rfl, it, rfl, hle⟩

end Accept

def Reaches (version : ℕ) (cur : Option (ℕ × Bytes)) : Prop := ∃ c, cur = some c ∧ version ≤ c.1

def Carried (T : ℤ) : Put → Prop
  | .minted ent => Entry.Lasts T ent.expireAt
  | _ => True

def held (key : Bytes) (nodes : N → KsRuntime) (node : N) : Option (ℕ × Bytes) :=
  view ((nodes node).store.lookup key)

structure HoldsSent (key : Bytes) (T : ℤ) (init : Option (ℕ × Bytes)) (s : Sys N) : Prop where
  unbounded : ∀ node, (s.nodes node).store.cache.maxBytes ≤ 0
  lives : ∀ node, Lives T ((s.nodes node).store.lookup key)
  carried : ∀ p ∈ s.puts, Carried T p.stage
  lasts : ∀ m ∈ s.sent, Entry.Lasts T m.2.expireAt
  source : ∀ node, held key s.nodes node = init ∨
    ∃ m ∈ s.sent, held key s.nodes node = some (stamp m.2)
  beyond : ∀ m ∈ s.sent, ∀ c, init = some c → c.1 < m.2.version
  own : ∀ m ∈ s.sent, Reaches m.2.version (held key s.nodes m.1)
  arrived : ∀ a ∈ s.arrivals, ∃ node, (node, a.ent) ∈ s.sent
  applied : ∀ a ∈ s.arrivals, a.applied = true → Reaches a.ent.version (held key s.nodes a.node)
  unique : ∀ m ∈ s.sent, ∀ m' ∈ s.sent, m.2.version = m'.2.version → m.2.value = m'.2.value

section Views

variable {key : Bytes} {nodes : N → KsRuntime} {node : N} {ks : KsRuntime}

theorem held_update_same (hview : view (ks.store.lookup key) = held key nodes node) :
    held key (Function.update nodes node ks) = held key nodes := by
  funext n
  by_cases hn : n = node
  · subst hn
    simp [held, hview]
  · simp [held, Function.update_of_ne hn]

theorem held_update_self :
    held key (Function.update nodes node ks) node = view (ks.store.lookup key) := by
  simp [held]

theorem held_update_of_ne {n : N} (hn : n ≠ node) :
    held key (Function.update nodes node ks) n = held key nodes n := by
  simp [held, Function.update_of_ne hn]

theorem forall_update (P : KsRuntime → Prop) (h : ∀ n, P (nodes n)) (hks : P ks) (n : N) :
    P (Function.update nodes node ks n) := by
  by_cases hn : n = node
  · subst hn
    simpa using hks
  · simpa [Function.update_of_ne hn] using h n

theorem view_lt_of_below {version : ℕ} {old : Option LruItem} {c : ℕ × Bytes}
    (hbelow : Below version old) (hc : view old = some c) : c.1 < version := by
  cases old with
  | none => cases hc
  | some it =>
    obtain rfl := Option.some.inj hc
    exact hbelow it rfl

/-- A newer entry at a node keeps what every node has reached. -/
theorem Reaches.update {ent : Entry} {version : ℕ} {n : N} (h : Reaches version (held key nodes n))
    (hbelow : Below ent.version ((nodes node).store.lookup key))
    (hnew : ks.store.lookup key = some (fresh ent)) :
    Reaches version (held key (Function.update nodes node ks) n) := by
  by_cases hn : n = node
  · subst hn
    rw [held_update_self, hnew]
    obtain ⟨c, hc, hle⟩ := h
    exact ⟨_, view_fresh ent, hle.trans (view_lt_of_below hbelow hc).le⟩
  · rw [held_update_of_ne hn]
    exact h

end Views

namespace HoldsSent

variable {key : Bytes} {T : ℤ} {init : Option (ℕ × Bytes)} {s : Sys N} {node : N}
  {ks : KsRuntime}

/-- A node moves while nobody can see a change of the key. -/
theorem quiet (h : HoldsSent key T init s) (hmax : ks.store.cache.maxBytes ≤ 0)
    (hks : Lives T (ks.store.lookup key) ∧
      view (ks.store.lookup key) = view ((s.nodes node).store.lookup key))
    {puts : List (PutCall N)} (hputs : ∀ p ∈ puts, Carried T p.stage)
    {arrivals : List (Arrival N)} (harrived : ∀ a ∈ arrivals, ∃ node, (node, a.ent) ∈ s.sent)
    (happlied : ∀ a ∈ arrivals, a.applied = true →
      Reaches a.ent.version (held key s.nodes a.node)) :
    HoldsSent key T init ⟨Function.update s.nodes node ks, puts, s.sent, arrivals⟩ := by
  have hsame : held key (Function.update s.nodes node ks) = held key s.nodes :=
    held_update_same hks.2
  exact
    { unbounded := forall_update (fun ks => ks.store.cache.maxBytes ≤ 0) h.unbounded hmax
      lives := forall_update (fun ks => Lives T (ks.store.lookup key)) h.lives hks.1
      carried := hputs
      lasts := h.lasts
      source := by rw [hsame]; exact h.source
      beyond := h.beyond
      own := by rw [hsame]; exact h.own
      arrived := harrived
      applied := by rw [hsame]; exact happlied
      unique := h.unique }

omit [DecidableEq N] in
/-- The version held at a node is at least the first one. -/
theorem beyond_init (h : HoldsSent key T init s) {version : ℕ}
    (hbelow : Below version ((s.nodes node).store.lookup key)) (c : ℕ × Bytes)
    (hc : init = some c) : c.1 < version := by
  rcases h.source node with hinit | ⟨m, hm, hsent⟩
  · exact view_lt_of_below hbelow (hinit.trans hc)
  · exact (h.beyond m hm c hc).trans (view_lt_of_below hbelow hsent)

/-- A node accepts an entry of its own, and fans it out. -/
theorem accept (h : HoldsSent key T init s) {ent : Entry} (hent : Entry.Lasts T ent.expireAt)
    (hmax : ks.store.cache.maxBytes ≤ 0)
    (hbelow : Below ent.version ((s.nodes node).store.lookup key))
    (hnew : ks.store.lookup key = some (fresh ent))
    (huntied : ∀ m ∈ s.sent, m.1 ≠ node → m.2.version = ent.version → m.2.value = ent.value)
    {puts : List (PutCall N)} (hputs : ∀ p ∈ puts, Carried T p.stage) : HoldsSent key T init
      ⟨Function.update s.nodes node ks, puts, (node, ent) :: s.sent, s.arrivals⟩ := by
  have hself : held key (Function.update s.nodes node ks) node = some (stamp ent) := by
    rw [held_update_self, hnew, view_fresh]
  -- The node has reached every version it has fanned out itself.
  have htie : ∀ m ∈ s.sent, m.2.version = ent.version → m.2.value = ent.value := by
    intro m hm hversion
    by_cases hnode : m.1 = node
    · obtain ⟨c, hc, hle⟩ := h.own m hm
      rw [hnode] at hc
      have hlt := view_lt_of_below hbelow hc
      omega
    · exact huntied m hm hnode hversion
  exact
    { unbounded := forall_update (fun ks => ks.store.cache.maxBytes ≤ 0) h.unbounded hmax
      lives := forall_update (fun ks => Lives T (ks.store.lookup key)) h.lives
        (hnew ▸ lives_fresh hent)
      carried := hputs
      lasts := List.forall_mem_cons.mpr ⟨hent, h.lasts⟩
      source := by
        intro n
        by_cases hn : n = node
        · exact Or.inr ⟨_, List.mem_cons_self .., hn ▸ hself⟩
        · rw [held_update_of_ne hn]
          rcases h.source n with hinit | ⟨m, hm, heq⟩
          · exact Or.inl hinit
          · exact Or.inr ⟨m, List.mem_cons_of_mem _ hm, heq⟩
      beyond := List.forall_mem_cons.mpr ⟨h.beyond_init hbelow, h.beyond⟩
      own := by
        refine List.forall_mem_cons.mpr ⟨⟨_, hself, le_refl _⟩, fun m hm => ?_⟩
        exact (h.own m hm).update hbelow hnew
      arrived := fun a ha =>
        (h.arrived a ha).imp fun _ hmem => List.mem_cons_of_mem _ hmem
      applied := fun a ha happ => (h.applied a ha happ).update hbelow hnew
      unique := by
        refine List.forall_mem_cons.mpr ⟨?_, fun m hm => List.forall_mem_cons.mpr ⟨?_, ?_⟩⟩
        · exact List.forall_mem_cons.mpr
            ⟨fun _ => rfl, fun m hm hversion => (htie m hm hversion.symm).symm⟩
        · exact htie m hm
        · exact h.unique m hm }

/-- A node takes an entry of another one. -/
theorem take (h : HoldsSent key T init s) {origin : N} {ent : Entry}
    (hsent : (origin, ent) ∈ s.sent)
    (hmax : ks.store.cache.maxBytes ≤ 0)
    (hbelow : Below ent.version ((s.nodes node).store.lookup key))
    (hnew : ks.store.lookup key = some (fresh ent)) (i : ℕ) :
    HoldsSent key T init ⟨Function.update s.nodes node ks, s.puts, s.sent,
      s.arrivals.set i ⟨node, ent, true⟩⟩ where
  unbounded := forall_update (fun ks => ks.store.cache.maxBytes ≤ 0) h.unbounded hmax
  lives := forall_update (fun ks => Lives T (ks.store.lookup key)) h.lives
    (hnew ▸ lives_fresh (h.lasts _ hsent))
  carried := h.carried
  lasts := h.lasts
  source := by
    intro n
    by_cases hn : n = node
    · refine Or.inr ⟨_, hsent, ?_⟩
      rw [hn, held_update_self, hnew, view_fresh]
    · rw [held_update_of_ne hn]
      exact h.source n
  beyond := h.beyond
  own := fun m hm => (h.own m hm).update hbelow hnew
  arrived := Announce.forall_mem_set h.arrived ⟨origin, hsent⟩
  applied := by
    refine Announce.forall_mem_set (fun a ha happ => (h.applied a ha happ).update hbelow hnew) ?_
    intro _
    refine ⟨stamp ent, ?_, le_refl _⟩
    rw [held_update_self, hnew, view_fresh]
  unique := h.unique

end HoldsSent

/-- Nothing expires: neither at the time of the turn nor what a put would mint then. -/
def Lasting (T : ℤ) (s : Sys N) (t : Turn N) : Prop :=
  t.now < T ∧ ∀ p ∈ s.puts, Entry.Lasts T (expireAt t.now p.ttl)

instance (T : ℤ) (s : Sys N) (t : Turn N) : Decidable (Lasting T s t) := by
  unfold Lasting Entry.Lasts
  infer_instance

section Turns

variable {key : Bytes} {T : ℤ} {init : Option (ℕ × Bytes)} {s : Sys N} {t : Turn N}
  (h : HoldsSent key T init s) (hlasting : Lasting T s t)
include h hlasting

/-- A section of a put, which may mint, apply or fan out. -/
theorem holdsSent_put (huntied : Untied key s t) {i : ℕ} (hmove : t.move = .put i) :
    HoldsSent key T init (step key s t) := by
  obtain ⟨hnow, hexp⟩ := hlasting
  simp only [step, hmove]
  cases hi : s.puts[i]? with
  | none => exact h
  | some p =>
    dsimp only
    have hmem := List.mem_of_getElem? hi
    have hquiet : ∀ {ks : KsRuntime} {stage : Put}, ks.store.cache.maxBytes ≤ 0 →
        Lives T (ks.store.lookup key) ∧
          view (ks.store.lookup key) = view ((s.nodes p.node).store.lookup key) →
        Carried T stage →
        HoldsSent key T init ⟨Function.update s.nodes p.node ks,
        s.puts.set i { p with stage := stage },
          s.sent, s.arrivals⟩ := fun hmax hks hstage =>
      h.quiet hmax hks (Announce.forall_mem_set h.carried hstage) h.arrived h.applied
    have hpeek : Lives T (((s.nodes p.node).store.perform t.now key
        (Store.peek key)).1.lookup key) ∧
        view (((s.nodes p.node).store.perform t.now key (Store.peek key)).1.lookup key) =
          view ((s.nodes p.node).store.lookup key) :=
      (tidy_lives hnow _).looks ((looking_peek key).lookup _ t.now key key) ⟨h.lives _, rfl⟩
    have henv : ∀ {ρ : Type} (v : Verb LruItem ρ),
        ((s.nodes p.node).store.perform t.now key v).1.cache.maxBytes ≤ 0 := by
      intro ρ v
      have heq := congrArg Env.maxBytes ((s.nodes p.node).store.perform_env t.now key v 0)
      exact heq.trans_le (h.unbounded p.node)
    cases hstage : p.stage with
    | start =>
      refine hquiet ?_ ?_ ?_
      · have heq := congrArg Env.maxBytes
          (env_nextVersion t.now 0 t.walk key 0 (s.nodes p.node))
        exact heq.trans_le (h.unbounded p.node)
      · exact (tidy_lives hnow _).nextVersion t.walk key 0 _ ⟨h.lives _, rfl⟩
      · exact hexp p hmem
    | minted ent =>
      have hcarried : Entry.Lasts T ent.expireAt := by
        have := h.carried p hmem
        rwa [hstage] at this
      simp only [putLocalApply]
      rcases accept_cases (h.unbounded p.node) hnow (h.lives p.node) with
        ⟨hok, hbelow, hnew⟩ | ⟨hok, hsame, -⟩
      · rw [hok]
        refine h.accept hcarried (henv _) hbelow hnew ?_
          (Announce.forall_mem_set h.carried trivial)
        exact huntied i (by rw [hmove]; rfl) p hi ent (by rw [hstage]; rfl) hbelow
      · rw [hok]
        refine hquiet (henv _) ?_ trivial
        dsimp only
        rw [hsame]
        exact ⟨h.lives _, rfl⟩
    | rejected ent =>
      simp only [putLocalApply]
      refine hquiet (henv _) hpeek ?_
      split <;> trivial
    | recheck ent => exact hquiet (henv _) hpeek trivial
    | finished ent failed => exact hquiet (h.unbounded _) ⟨h.lives _, rfl⟩ trivial

/-- An entry that was fanned out comes in at another node. -/
theorem holdsSent_arrive {node : N} {ent : Entry} (hmove : t.move = .arrive node ent) :
    HoldsSent key T init (step key s t) := by
  simp only [step, hmove]
  by_cases hsent : (s.sent.any fun m => decide (m.1 ≠ node ∧ m.2 = ent)) = true
  · rw [if_pos hsent]
    obtain ⟨m, hm, heq⟩ := List.any_eq_true.mp hsent
    obtain ⟨-, rfl⟩ := of_decide_eq_true heq
    refine h.quiet ?_ ?_ h.carried ?_ ?_
    · have heq := congrArg Env.maxBytes
        (env_observeVersion t.now 0 t.walk key m.2.version (s.nodes node))
      exact heq.trans_le (h.unbounded node)
    · exact (tidy_lives hlasting.1 _).observeVersion t.walk key m.2.version _ ⟨h.lives _, rfl⟩
    · refine List.forall_mem_append.mpr ⟨h.arrived, List.forall_mem_singleton.mpr ⟨m.1, hm⟩⟩
    · refine List.forall_mem_append.mpr ⟨h.applied, List.forall_mem_singleton.mpr ?_⟩
      exact fun happ => absurd happ Bool.false_ne_true
  · rw [if_neg hsent]
    exact h

/-- An entry that came in is offered to the store. -/
theorem holdsSent_apply {i : ℕ} (hmove : t.move = .apply i) :
    HoldsSent key T init (step key s t) := by
  simp only [step, hmove]
  split
  next node ent hi =>
    obtain ⟨origin, hsent⟩ := h.arrived _ (List.mem_of_getElem? hi)
    have hmax : ((s.nodes node).store.perform t.now key
        (Store.acceptIfNewer key ent)).1.cache.maxBytes ≤ 0 := by
      have heq := congrArg Env.maxBytes
        ((s.nodes node).store.perform_env t.now key (Store.acceptIfNewer key ent) 0)
      exact heq.trans_le (h.unbounded node)
    rcases accept_cases (h.unbounded node) hlasting.1 (h.lives node) with
      ⟨-, hbelow, hnew⟩ | ⟨-, hsame, it, hit, hle⟩
    · exact h.take hsent hmax hbelow hnew i
    · refine h.quiet hmax ?_ h.carried ?_ ?_
      · rw [hsame]
        exact ⟨h.lives _, rfl⟩
      · exact Announce.forall_mem_set h.arrived ⟨origin, hsent⟩
      · refine Announce.forall_mem_set h.applied fun _ => ?_
        refine ⟨(it.entry.version, it.flush.1.entry.value), ?_, hle⟩
        rw [held, hit]
        rfl
  · exact h

theorem holdsSent_step (huntied : Untied key s t) : HoldsSent key T init (step key s t) := by
  cases hmove : t.move with
  | put i => exact holdsSent_put h hlasting huntied hmove
  | arrive node ent => exact holdsSent_arrive h hlasting hmove
  | apply i => exact holdsSent_apply h hlasting hmove

end Turns

section Converge

variable {key : Bytes} {T now : ℤ} {nodes : N → KsRuntime} {puts : List (N × Bytes × ℤ)}
  {init : Option (ℕ × Bytes)} {s : Sys N}

omit [DecidableEq N] in
theorem holdsSent_begin (hmax : ∀ node, (nodes node).store.cache.maxBytes ≤ 0)
    (hlives : ∀ node, Lives T ((nodes node).store.lookup key))
    (hinit : ∀ node, held key nodes node = init) : HoldsSent key T init (begin_ nodes puts) where
  unbounded := hmax
  lives := hlives
  carried := by
    intro p hp
    obtain ⟨q, -, rfl⟩ := List.mem_map.mp hp
    trivial
  lasts := by simp [begin_]
  source node := Or.inl (hinit node)
  beyond := by simp [begin_]
  own := by simp [begin_]
  arrived := by simp [begin_]
  applied := by simp [begin_]
  unique := by simp [begin_]

/-- Once everything is delivered, every node has reached every version fanned out. -/
theorem HoldsSent.reaches (h : HoldsSent key T init s) (hdelivered : Delivered s) (node : N) :
    ∀ m ∈ s.sent, Reaches m.2.version (held key s.nodes node) := by
  intro m hm
  by_cases hnode : node = m.1
  · rw [hnode]
    exact h.own m hm
  · exact h.applied _ (hdelivered m hm node hnode) rfl

/-- So no node holds less than another. -/
theorem HoldsSent.agree (h : HoldsSent key T init s) (hdelivered : Delivered s) (node node' : N) :
    held key s.nodes node = held key s.nodes node' := by
  -- A node that has heard of anything holds something that was fanned out.
  have hsource : ∀ n, ∀ m ∈ s.sent, ∃ m' ∈ s.sent,
      held key s.nodes n = some (stamp m'.2) ∧ m.2.version ≤ m'.2.version := by
    intro n m hm
    obtain ⟨c, hc, hle⟩ := h.reaches hdelivered n m hm
    rcases h.source n with hinit | ⟨m', hm', heq⟩
    · have hlt := h.beyond m hm c (hinit.symm.trans hc)
      omega
    · refine ⟨m', hm', heq, ?_⟩
      rw [heq] at hc
      obtain rfl := Option.some.inj hc
      exact hle
  cases hsent : s.sent with
  | nil =>
    have hinit : ∀ n, held key s.nodes n = init := by
      intro n
      rcases h.source n with heq | ⟨m, hm, -⟩
      · exact heq
      · simp [hsent] at hm
    rw [hinit, hinit]
  | cons first rest =>
    have hfirst : first ∈ s.sent := by simp [hsent]
    obtain ⟨m, hm, heq, -⟩ := hsource node first hfirst
    obtain ⟨m', hm', heq', hle⟩ := hsource node' m hm
    obtain ⟨m'', hm'', heq'', hle'⟩ := hsource node m' hm'
    have hversion : m''.2.version = m.2.version :=
      congrArg Prod.fst (Option.some.inj (heq''.symm.trans heq))
    have htie : m.2.version = m'.2.version := by omega
    rw [heq, heq', stamp, stamp, htie, h.unique m hm m' hm' htie]

/-- Nodes that start out alike and take puts of one key, in any interleaving and with
entries delivered in any order and any number of times, hold the same once every entry
has been delivered, unless a node accepted a put under a version another had fanned out
for another value. -/
theorem coordinators_converge (hmax : ∀ node, (nodes node).store.cache.maxBytes ≤ 0)
    (hlives : ∀ node, Lives T ((nodes node).store.lookup key))
    (hinit : ∀ node, held key nodes node = init) {turns : List (Turn N)}
    (hlasting : Along (step key) (Lasting T) (begin_ nodes puts) turns)
    (huntied : Along (step key) (Untied key) (begin_ nodes puts) turns)
    (hdelivered : Delivered (run key (begin_ nodes puts) turns)) (hnow : now < T)
    (node node' : N) :
    content ((run key (begin_ nodes puts) turns).nodes node).store now key =
      content ((run key (begin_ nodes puts) turns).nodes node').store now key := by
  have hsent : HoldsSent key T init (run key (begin_ nodes puts) turns) :=
    (hlasting.and huntied).invariant
      (fun _ _ h hturn => holdsSent_step h hturn.1 hturn.2) (holdsSent_begin hmax hlives hinit)
  rw [content_of_lives (hsent.lives node) hnow, content_of_lives (hsent.lives node') hnow]
  exact hsent.agree hdelivered node node'

end Converge

def emptyNodes (_ : Bool) : KsRuntime := emptyKeySpace

def turnsOf (moves : List (Move Bool)) : List (Turn Bool) :=
  moves.map fun move => ⟨move, 1, noWalk⟩

def inTurn : List (Turn Bool) :=
  turnsOf [.put 0, .put 0, .arrive true ⟨[1], 1, 0, 0⟩, .apply 0, .put 1, .put 1,
    .arrive false ⟨[2], 2, 0, 0⟩, .apply 1]

def inTurnRun : Sys Bool := run [0] (begin_ emptyNodes [(false, [1], 0), (true, [2], 0)]) inTurn

/-- Two nodes take one put each, the second after the first arrived. -/
theorem coordinators_converge_in_turn :
    content (inTurnRun.nodes false).store 2 [0] = some (2, [2]) ∧
      content (inTurnRun.nodes false).store 2 [0] = content (inTurnRun.nodes true).store 2 [0] := by
  have hlives : ∀ node, Lives 3 ((emptyNodes node).store.lookup [0]) :=
    fun _ _ hit => absurd hit nofun
  have hlasting : Along (step [0]) (Lasting 3)
      (begin_ emptyNodes [(false, [1], 0), (true, [2], 0)]) inTurn := by decide +kernel
  have huntied : Along (step [0]) (Untied [0])
      (begin_ emptyNodes [(false, [1], 0), (true, [2], 0)]) inTurn := by decide +kernel
  have hdelivered : Delivered inTurnRun := by decide +kernel
  refine ⟨by decide +kernel, ?_⟩
  exact coordinators_converge (fun _ => le_refl _) hlives (fun _ => rfl) hlasting huntied
    hdelivered (by decide) false true

def atOnce : List (Turn Bool) :=
  turnsOf [.put 0, .put 1, .put 0, .put 1, .arrive true ⟨[1], 1, 0, 0⟩, .apply 0,
    .arrive false ⟨[2], 1, 0, 0⟩, .apply 1]

def atOnceRun : Sys Bool := run [0] (begin_ emptyNodes [(false, [1], 0), (true, [2], 0)]) atOnce

/-- Both puts are minted under version one, and each node keeps its own value although
everything has been delivered. -/
theorem coordinators_diverge_at_once :
    Along (step [0]) (Lasting 3) (begin_ emptyNodes [(false, [1], 0), (true, [2], 0)]) atOnce ∧
      Delivered atOnceRun ∧
      atOnceRun.puts.map (fun p => p.stage) =
        [.finished ⟨[1], 1, 0, 0⟩ false, .finished ⟨[2], 1, 0, 0⟩ false] ∧
      content (atOnceRun.nodes false).store 2 [0] = some (1, [1]) ∧
      content (atOnceRun.nodes true).store 2 [0] = some (1, [2]) := by
  refine ⟨?_, ?_, ?_, ?_, ?_⟩ <;> decide +kernel

end Supercache.Coordinators

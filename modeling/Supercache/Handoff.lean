import Supercache.Hints
import Supercache.ItemReplication

/-!
Hinted handoff of a set's items. The entries of one set share one identity, so
the queue of a peer keeps only the newest of them, and the peer hears of one
item where it would have heard of all. That makes no difference exactly when the
entries are about one item, or the last of them has expired anyway.
-/
namespace Supercache.Handoff

open Wire Lru ByteMap Edits ItemReplication Hints Schedule

/-- What a peer has under a name: something that refuses sets, a tombstone, or the items of a set,
none if there is no set. -/
inductive View where
  | blocked
  | tombstone (version : ℕ)
  | content (s : Map Unit)

def lapsed (now expireAt : ℤ) : Bool := expireAt ≠ 0 && expireAt ≤ now

def Shows (now : ℤ) : View → Option LruItem → Prop
  | .blocked, none => False
  | .blocked, some it => it.entry.expired now = false ∧ it.entry.isTombstone = false ∧
      (it.entry.has flagSet = false ∨ it.entry.flags = flagSet ∧ setKind.load it = none)
  | .tombstone _, none => False
  | .tombstone t, some it => it.entry.expired now = false ∧ it.entry.isTombstone = true ∧
      it.entry.version = t
  | .content s, none => s = ∅
  | .content s, some it => it.entry.expired now = true ∧ s = ∅ ∨
      Carries setMode (now + 1) s (some it)

namespace View

def items : View → Map Unit
  | .content s => s
  | _ => ∅

def after (now : ℤ) (v : View) (ent : Entry) : View :=
  match v with
  | .blocked => .blocked
  | .tombstone t =>
    if ent.has setMode.addFlag ∧ t < ent.version then
      .content (if ent.expired now then ∅ else applyAll ∅ (edit setMode ent).toList)
    else .tombstone t
  | .content s => .content (if ent.expired now then ∅ else applyAll s (edit setMode ent).toList)

end View

section Peer

variable {now : ℤ} {m : Mem} {key : Bytes} {s : Map Unit} {version : ℕ} {x : ℤ}

variable {ent e : Entry} {v : View} {ρ : Type} {it : LruItem} {ks : KsRuntime}

/-- The expiry of a touched set is the new one, if there is one. -/
theorem expired_touched (hx : e.expired now = false) (version : ℕ) (x : ℤ) :
    (setKind.touched e version x).expired now = lapsed now x := by
  by_cases hzero : x = 0
  · subst hzero
    simpa [Kind.touched, Entry.extend, Entry.expired, lapsed] using hx
  · simp [Kind.touched, Entry.extend, Entry.expired, lapsed, hzero]

theorem tidy_shows (v : View) : Tidy now (Shows now v) where
  flush := by
    intro it hshows
    obtain ⟨blob, hblob⟩ := it.entry_flush
    cases v with
    | blocked =>
      obtain ⟨hx, ht, hno⟩ := hshows
      refine ⟨by rw [hblob]; exact hx, by rw [hblob]; exact ht, ?_⟩
      refine hno.imp (fun hhas => by rw [hblob]; exact hhas) fun ⟨hflags, hload⟩ => ⟨?_, ?_⟩
      · rw [hblob]
        exact hflags
      · exact (setMode.load_flush it hflags).trans hload
    | tombstone t =>
      rw [Shows, hblob]
      exact hshows
    | content s =>
      refine hshows.imp (fun ⟨hx, hs⟩ => ⟨by rw [hblob]; exact hx, hs⟩) fun hcar => ?_
      exact (tidy_carries setMode (Int.lt_add_one_of_le le_rfl) s).flush it hcar
  expire := by
    intro it hx hshows
    cases v with
    | blocked => exact absurd (hx.symm.trans hshows.1) (by simp)
    | tombstone t => exact absurd (hx.symm.trans hshows.1) (by simp)
    | content s =>
      refine hshows.elim And.right fun hcar => ?_
      exact (tidy_carries setMode (Int.lt_add_one_of_le le_rfl) s).expire it hx hcar

/-- A set that is stored is found again, unless it has expired. -/
theorem shows_stored {v : Verb LruItem ρ}
    (hresult : (v (m.env now) (m.lookup key)).act.result (m.lookup key) = some it)
    (hflags : it.entry.flags = flagSet) (hload : setKind.load it = some s) :
    Shows now (.content (if it.entry.expired now then ∅ else s))
      ((m.perform now key v).1.lookup key) := by
  cases hx : it.entry.expired now with
  | false =>
    have hcar : Carries setMode (now + 1) s (some it) :=
      ⟨hflags, Entry.lasts_of_not_expired hx, hload⟩
    rw [carries_stored (Int.lt_add_one_of_le le_rfl) hresult hcar]
    exact Or.inr hcar
  | true =>
    have hexpected : m.expected now key v key = some it := by
      simp only [Memory.expected, if_true]
      exact hresult
    rcases m.lookup_perform now key v key with heq | ⟨hnone, -⟩
    · rw [heq, hexpected]
      exact Or.inl ⟨hx, rfl⟩
    · rw [hnone]
      rfl

theorem shows_create (version : ℕ) {f : Map Unit → Map Unit} {v : Verb LruItem Bool}
    (hplan : v (m.env now) (m.lookup key) = setKind.create key version x fun s => some (f s)) :
    Shows now (.content (if lapsed now x then ∅ else f ∅))
      ((m.perform now key v).1.lookup key) := by
  let e : Entry := ⟨setKind.encode (f ∅), version, x, flagSet⟩
  have hresult : (v (m.env now) (m.lookup key)).act.result (m.lookup key) =
      some (setKind.itemOf e (f ∅)) := by
    rw [hplan]
    rfl
  have hentry : (setKind.itemOf e (f ∅)).entry = e := setKind.entry_setSlot _ _
  have hload : setKind.load (setKind.itemOf e (f ∅)) = some (f ∅) := by
    simp [Kind.load, Kind.itemOf]
  have hshows := shows_stored hresult (by rw [hentry]) hload
  rw [hentry] at hshows
  exact hshows

/-- A mutation of a live set, seen by a reader. -/
theorem shows_mutate (hs : Shows now (.content s) (m.lookup key)) (version : ℕ)
    (f : Map Unit → Map Unit) : Shows now (.content (if lapsed now x then ∅ else f s))
      ((m.perform now key (setKind.mutate key version x (fun _ => version)
        fun s => some (f s))).1.lookup key) := by
  cases hlook : m.lookup key with
  | none =>
    rw [hlook] at hs
    rw [show s = ∅ from hs]
    exact shows_create version (by rw [hlook]; rfl)
  | some it =>
    rw [hlook] at hs
    rcases hs with ⟨hx, rfl⟩ | ⟨hflags, hlasts, hload⟩
    · refine shows_create version ?_
      rw [hlook]
      exact if_pos hx
    · have hlive : it.entry.isTombstone = false ∧ it.entry.has setMode.kind.flag = true :=
        live_of_flags hflags
      obtain ⟨ht, hhas⟩ := hlive
      have hx : it.entry.expired (m.env now).now = false :=
        Entry.expired_of_lasts hlasts (Int.lt_add_one_of_le le_rfl)
      let e := setKind.touched it.entry version x
      let new := setKind.setSlot { it with entry := e } ⟨some (f s), true⟩
      have hentry : new.entry = e := setKind.entry_setSlot _ _
      have hexpired : new.entry.expired now = lapsed now x := by
        rw [hentry]
        exact expired_touched hx version x
      have hresult : (setKind.mutate key version x (fun _ => version) (fun s => some (f s))
          (m.env now) (m.lookup key)).act.result (m.lookup key) = some new := by
        rw [hlook, setKind.mutate_of_live key version x (fun _ => version)
          (fun s => some (f s)) hx ht hhas hload]
        rfl
      rw [← hexpired]
      exact shows_stored hresult (by rw [hentry]; rfl) (by simp [new, Kind.load])

/-- Over a tombstone a mutation starts afresh or is refused. -/
theorem shows_mutate_tombstone {t : ℕ} (hs : Shows now (.tombstone t) (m.lookup key))
    (version : ℕ) (f : Map Unit → Map Unit) :
    Shows now (if t < version then .content (if lapsed now x then ∅ else f ∅) else .tombstone t)
      ((m.perform now key (setKind.mutate key version x (fun _ => version)
        fun s => some (f s))).1.lookup key) := by
  cases hlook : m.lookup key with
  | none =>
    rw [hlook] at hs
    exact hs.elim
  | some it =>
    have hthere := hs
    rw [hlook] at hthere
    obtain ⟨hx, ht, rfl⟩ := hthere
    by_cases hlt : it.entry.version < version
    · rw [if_pos hlt]
      refine shows_create version ?_
      rw [hlook]
      simp only [Kind.mutate, Memory.env, hx, ht, Bool.false_eq_true, if_false, if_true,
        if_neg hlt.not_ge]
    · rw [if_neg hlt]
      rw [Memory.lookup_perform_of_keep, hlook]
      · rwa [hlook] at hs
      · rw [hlook]
        simp only [Kind.mutate, Memory.env, hx, ht, Bool.false_eq_true, if_false, if_true,
          if_pos (not_lt.mp hlt)]
        rfl

/-- A set that does not load is not changed. -/
theorem shows_mutate_blocked (hs : Shows now .blocked (m.lookup key)) (version : ℕ)
    (f : Map Unit → Map Unit) :
    Shows now .blocked ((m.perform now key (setKind.mutate key version x (fun _ => version)
      fun s => some (f s))).1.lookup key) := by
  rw [Memory.lookup_perform_of_keep]
  · exact hs
  · cases hlook : m.lookup key with
    | none =>
      rw [hlook] at hs
      exact hs.elim
    | some it =>
      rw [hlook] at hs
      obtain ⟨hx, ht, hno⟩ := hs
      rcases hno with hhas | ⟨hflags, hload⟩
      · change it.entry.has setKind.flag = false at hhas
        simp only [Kind.mutate, Memory.env, hx, ht, hhas, Bool.false_eq_true, if_false]
        rfl
      · have hlive : it.entry.isTombstone = false ∧ it.entry.has setMode.kind.flag = true :=
          live_of_flags hflags
        have hhas : it.entry.has setKind.flag = true := hlive.2
        simp only [Kind.mutate, Memory.env, hx, ht, hhas, hload, Bool.false_eq_true, if_false,
          if_true]
        rfl

theorem edit_of_add (hflags : ent.flags = flagSetAdd) :
    ent.has setMode.addFlag = true ∧ edit setMode ent = some (.put ent.value ()) := by
  have hadd : ent.has setMode.addFlag = true := (Entry.has_of_flags hflags _).trans rfl
  exact ⟨hadd, if_pos hadd⟩

theorem edit_of_remove (hflags : ent.flags = flagSetRemove) :
    ent.has setMode.addFlag = false ∧ ent.has setMode.remFlag = true ∧
      edit setMode ent = some (.del ent.value) := by
  have hadd : ent.has setMode.addFlag = false := (Entry.has_of_flags hflags _).trans rfl
  have hrem : ent.has setMode.remFlag = true := (Entry.has_of_flags hflags _).trans rfl
  refine ⟨hadd, hrem, ?_⟩
  rw [edit, hadd, if_neg Bool.false_ne_true, if_pos hrem]

theorem shows_add (hs : Shows now v (m.lookup key)) (hflags : ent.flags = flagSetAdd)
    (hx : lapsed now x = ent.expired now) : Shows now (v.after now ent)
      ((m.perform now key (Store.setAdd key ent.value ent.version x)).1.lookup key) := by
  obtain ⟨hadd, hedit⟩ := edit_of_add hflags
  cases v with
  | blocked => exact shows_mutate_blocked hs ent.version fun s => s.insert ent.value ()
  | tombstone t =>
    have hshows := shows_mutate_tombstone (x := x) hs ent.version fun s => s.insert ent.value ()
    rw [hx] at hshows
    simp only [View.after, hadd, hedit, true_and]
    exact hshows
  | content s =>
    have hshows := shows_mutate (x := x) hs ent.version fun s => s.insert ent.value ()
    rw [hx] at hshows
    simp only [View.after, hedit]
    exact hshows

/-- A removal never makes a set: from a set that is there it takes the item, and otherwise it
changes nothing a reader could see. -/
theorem shows_remove (hs : Shows now v (m.lookup key)) (hflags : ent.flags = flagSetRemove)
    (hx : lapsed now x = ent.expired now) : Shows now (v.after now ent)
      ((m.perform now key (Store.setRemove key ent.value ent.version x)).1.lookup key) := by
  obtain ⟨hadd, -, hedit⟩ := edit_of_remove hflags
  have hempty : (if ent.expired now then ∅ else applyAll ∅ (edit setMode ent).toList) =
      (∅ : Map Unit) := by
    rw [hedit]
    split
    · rfl
    · exact Std.ExtTreeMap.erase_empty
  cases hlook : m.lookup key with
  | none =>
    rw [Memory.lookup_perform_of_keep _ (by rw [hlook]; rfl), hlook]
    rw [hlook] at hs
    cases v with
    | blocked => exact hs.elim
    | tombstone t => exact hs.elim
    | content s =>
      rw [View.after, show s = ∅ from hs, hempty]
      rfl
  | some it =>
    have hthere := hs
    rw [hlook] at hthere
    -- a live entry of the set is mutated
    have hlive : it.entry.expired now = false → it.entry.isTombstone = false →
        it.entry.has setKind.flag = true →
        m.perform now key (Store.setRemove key ent.value ent.version x) =
          m.perform now key (setKind.mutate key ent.version x (fun _ => ent.version)
            fun s => some (s.erase ent.value)) := by
      intro hx ht hhas
      refine m.perform_congr ?_
      rw [hlook]
      simp only [Store.setRemove, Kind.removeVerb, Memory.env, hx, ht, hhas, Bool.false_eq_true,
        if_false, Bool.not_true]
      rfl
    cases v with
    | blocked =>
      obtain ⟨hx', ht, hno⟩ := hthere
      rcases hno with hhas | ⟨hset, -⟩
      · rw [Memory.lookup_perform_of_keep]
        · exact hs
        · change it.entry.has setKind.flag = false at hhas
          rw [hlook]
          simp only [Store.setRemove, Kind.removeVerb, Memory.env, hx', ht, hhas,
            Bool.false_eq_true, if_false, Bool.not_false, if_true]
          rfl
      · have hhas : it.entry.isTombstone = false ∧ it.entry.has setMode.kind.flag = true :=
          live_of_flags hset
        rw [hlive hx' ht hhas.2]
        exact shows_mutate_blocked hs ent.version fun s => s.erase ent.value
    | tombstone t =>
      obtain ⟨hx', ht, rfl⟩ := hthere
      rw [Memory.lookup_perform_of_keep]
      · rw [View.after, hadd, if_neg (by simp)]
        exact hs
      · rw [hlook]
        simp only [Store.setRemove, Kind.removeVerb, Memory.env, hx', ht, Bool.false_eq_true,
          if_false, if_true]
        split <;> rfl
    | content s =>
      rcases hthere with ⟨hx', rfl⟩ | ⟨hset, hlasts, hload⟩
      · have hdrop : Store.setRemove key ent.value ent.version x (m.env now) (m.lookup key) =
            .drop true := by
          rw [hlook]
          exact if_pos hx'
        rw [m.lookup_perform_of_not_evicts (by rw [hdrop]; rfl), View.after, hempty]
        simp only [Memory.expected, if_true, hdrop]
        rfl
      · have hhas : it.entry.isTombstone = false ∧ it.entry.has setMode.kind.flag = true :=
          live_of_flags hset
        rw [hlive (Entry.expired_of_lasts hlasts (Int.lt_add_one_of_le le_rfl)) hhas.1 hhas.2]
        have hshows := shows_mutate (x := x) hs ent.version fun s => s.erase ent.value
        rw [hx] at hshows
        simp only [View.after, hedit]
        exact hshows

/-- What an arriving entry of the set makes of what the peer has. -/
theorem shows_applyPut (ttl : ℤ) (walk : Walk) (hs : Shows now v (ks.store.lookup key))
    (hflags : ent.flags = flagSetAdd ∨ ent.flags = flagSetRemove) :
    Shows now (v.after now ent) ((applyPut setMode key ttl now walk ks ent).store.lookup key) := by
  have hobs := (tidy_shows v).observeVersion walk key ent.version ks hs
  have hx : lapsed now (if ent.expireAt = 0 then expireAt now ttl else ent.expireAt) =
      ent.expired now := by
    by_cases hzero : ent.expireAt = 0
    · rw [if_pos hzero]
      simp only [Entry.expired, hzero, lapsed, expireAt]
      split
      · rfl
      · have hlate : ¬ now + ttl ≤ now := by omega
        simp [hlate]
    · rw [if_neg hzero]
      rfl
  unfold applyPut
  rcases hflags with hflags | hflags
  · rw [if_pos (edit_of_add hflags).1]
    exact shows_add hobs hflags hx
  · obtain ⟨hadd, hrem, -⟩ := edit_of_remove hflags
    rw [hadd, if_neg Bool.false_ne_true, if_pos hrem]
    exact shows_remove hobs hflags hx

theorem shows_replicaRun {ents : List Entry} (ttl : ℤ) (walk : Entry → Walk)
    (hs : Shows now v (ks.store.lookup key))
    (hflags : ∀ ent ∈ ents, ent.flags = flagSetAdd ∨ ent.flags = flagSetRemove) :
    Shows now (ents.foldl (View.after now) v) ((replicaRun setMode key ttl ks
        (ents.map fun ent => ⟨now, walk ent, ent⟩)).store.lookup key) := by
  induction ents generalizing ks v with
  | nil => exact hs
  | cons ent ents ih =>
    obtain ⟨hfirst, hrest⟩ := List.forall_mem_cons.mp hflags
    exact ih (shows_applyPut ttl (walk ent) hs hfirst) hrest

/-- Nothing is read from what is not a live set. -/
theorem ret_read_of_missing (miss : ρ) (f : Map Unit → ρ) {env : Env}
    (h : it.entry.expired env.now = true ∨ it.entry.isTombstone = true ∨
      it.entry.has setKind.flag = false ∨ setKind.load it = none) (still : Bool) :
    (setKind.read miss f env (some it)).ret still = miss := by
  simp only [Kind.read]
  by_cases hx : it.entry.expired env.now
  · rw [if_pos hx]
    rfl
  · rw [if_neg hx]
    by_cases hdead : it.entry.isTombstone = true ∨ (!it.entry.has setKind.flag) = true
    · rw [if_pos hdead]
      rfl
    · rw [if_neg hdead]
      have hload : setKind.load it = none := by
        rcases h with h | h | h | h
        · exact absurd h hx
        · exact absurd (Or.inl h) hdead
        · exact absurd (Or.inr (by rw [h]; rfl)) hdead
        · exact h
      unfold Kind.load at hload
      cases hcache : (setKind.slot it).cache with
      | some s => simp [hcache] at hload
      | none =>
        rw [hcache] at hload
        simp only [hload]
        rfl

/-- A reader sees the items of the view. -/
theorem seen_of_shows (hs : Shows now v (m.lookup key)) (item : Bytes) :
    seen setMode m now key item = v.items[item]? := by
  have hmiss : ∀ it, m.lookup key = some it → (it.entry.expired now = true ∨
      it.entry.isTombstone = true ∨ it.entry.has setKind.flag = false ∨
      setKind.load it = none) → seen setMode m now key item = (∅ : Map Unit)[item]? := by
    intro it hlook hno
    unfold seen
    rw [Memory.perform_ret, setMode.look_eq, hlook, Std.ExtTreeMap.getElem?_empty]
    exact ret_read_of_missing none _ hno _
  cases hlook : m.lookup key with
  | none =>
    rw [hlook] at hs
    cases v with
    | blocked => exact hs.elim
    | tombstone t => exact hs.elim
    | content s =>
      have hcar : Carries setMode (now + 1) s (m.lookup key) := by
        rw [hlook]
        exact hs
      exact seen_of_carries hcar (Int.lt_add_one_of_le le_rfl) item
  | some it =>
    rw [hlook] at hs
    cases v with
    | blocked =>
      exact hmiss it hlook (Or.inr (Or.inr (hs.2.2.imp_right And.right)))
    | tombstone t => exact hmiss it hlook (Or.inr (Or.inl hs.2.1))
    | content s =>
      rcases hs with ⟨hx, rfl⟩ | hcar
      · exact hmiss it hlook (Or.inl hx)
      · rw [← hlook] at hcar
        exact seen_of_carries hcar (Int.lt_add_one_of_le le_rfl) item

end Peer

section Compare

variable {now : ℤ} {ent : Entry} {s s' : Map Unit}

/-- An entry that adds an item to a set or removes one from it. -/
def ForItem (ent : Entry) : Prop := ent.flags = flagSetAdd ∨ ent.flags = flagSetRemove

theorem ForItem.edit (h : ForItem ent) : ∃ e, edit setMode ent = some e ∧ e.key = ent.value ∧
      (ent.has setMode.addFlag = false → e.value = none) := by
  rcases h with hflags | hflags
  · obtain ⟨hadd, hedit⟩ := edit_of_add hflags
    exact ⟨_, hedit, rfl, fun hno => absurd (hadd.symm.trans hno) (by simp)⟩
  · exact ⟨_, (edit_of_remove hflags).2.2, rfl, fun _ => rfl⟩

/-- After an expired entry there is nothing to read. -/
theorem items_after_expired (v : View) (hx : ent.expired now = true) :
    (v.after now ent).items = ∅ := by
  cases v with
  | blocked => rfl
  | tombstone t =>
    simp only [View.after, hx, if_true]
    split <;> rfl
  | content s =>
    simp only [View.after, hx, if_true]
    rfl

/-- What entries about one item, with versions below a bound, can make of a view. -/
inductive Touched (item : Bytes) (bound : ℕ) : View → View → Prop where
  | same (v : View) : Touched item bound v v
  | edited (s s' : Map Unit) (h : ∀ k, k ≠ item → s'[k]? = s[k]?) :
    Touched item bound (.content s) (.content s')
  | created (t : ℕ) (s' : Map Unit) (ht : t < bound) (h : ∀ k, k ≠ item → s'[k]? = none) :
    Touched item bound (.tombstone t) (.content s')

variable {item : Bytes} {bound : ℕ} {v w : View}

/-- One more entry about the same item. -/
theorem Touched.after (h : Touched item bound v w) (hent : ForItem ent)
    (hvalue : ent.value = item) (hx : ent.expired now = false) (hver : ent.version < bound) :
    Touched item bound v (w.after now ent) := by
  obtain ⟨e, hedit, hkey, -⟩ := hent.edit
  have hother : ∀ (s : Map Unit) k, k ≠ item →
      (applyAll s (edit setMode ent).toList)[k]? = s[k]? := by
    intro s k hk
    rw [hedit]
    exact (e.getElem?_apply s k).trans (if_neg (by rw [hkey, hvalue]; exact Ne.symm hk))
  cases h with
  | same v =>
    cases v with
    | blocked => exact .same _
    | tombstone t =>
      simp only [View.after, hx, Bool.false_eq_true, if_false]
      by_cases hnew : ent.has setMode.addFlag = true ∧ t < ent.version
      · rw [if_pos hnew]
        refine .created t _ (hnew.2.trans hver) fun k hk => ?_
        rw [hother ∅ k hk, Std.ExtTreeMap.getElem?_empty]
      · rw [if_neg hnew]
        exact .same _
    | content s =>
      simp only [View.after, hx, Bool.false_eq_true, if_false]
      exact .edited s _ (hother s)
  | edited s s' hs =>
    simp only [View.after, hx, Bool.false_eq_true, if_false]
    exact .edited s _ fun k hk => (hother s' k hk).trans (hs k hk)
  | created t s' ht hs =>
    simp only [View.after, hx, Bool.false_eq_true, if_false]
    exact .created t _ ht fun k hk => (hother s' k hk).trans (hs k hk)

/-- An entry about the item, newer than all before it, makes up for them. -/
theorem Touched.items_after (h : Touched ent.value ent.version v w) (hent : ForItem ent)
    (hx : ent.expired now = false) (k : Bytes) :
    (w.after now ent).items[k]? = (v.after now ent).items[k]? := by
  obtain ⟨e, hedit, hkey, hrem⟩ := hent.edit
  have happly : ∀ s : Map Unit, (applyAll s (edit setMode ent).toList)[k]? =
      if ent.value = k then e.value else s[k]? := by
    intro s
    rw [hedit, ← hkey]
    exact e.getElem?_apply s k
  cases h with
  | same v => rfl
  | edited s s' hs =>
    simp only [View.after, hx, Bool.false_eq_true, if_false, View.items, happly]
    by_cases heq : ent.value = k
    · simp only [if_pos heq]
    · simp only [if_neg heq]
      exact hs k (Ne.symm heq)
  | created t s' ht hs =>
    simp only [View.after, hx, Bool.false_eq_true, if_false, View.items, happly, ht, and_true]
    cases hadd : ent.has setMode.addFlag with
    | true =>
      simp only [if_true, happly]
      by_cases heq : ent.value = k
      · simp only [if_pos heq]
      · simp only [if_neg heq]
        rw [hs k (Ne.symm heq), Std.ExtTreeMap.getElem?_empty]
    | false =>
      simp only [Bool.false_eq_true, if_false, Std.ExtTreeMap.getElem?_empty]
      by_cases heq : ent.value = k
      · rw [if_pos heq]
        exact hrem hadd
      · rw [if_neg heq]
        exact hs k (Ne.symm heq)

variable {ents : List Entry}

theorem Touched.foldl (h : Touched item bound v w)
    (hents : ∀ e ∈ ents, ForItem e ∧ e.value = item ∧ e.expired now = false ∧ e.version < bound) :
    Touched item bound v (ents.foldl (View.after now) w) := by
  induction ents generalizing w with
  | nil => exact h
  | cons e ents ih =>
    obtain ⟨⟨hitem, hvalue, hx, hver⟩, hrest⟩ := List.forall_mem_cons.mp hents
    exact ih (h.after hitem hvalue hx hver) hrest

/-- Entries that have not expired edit the items one after another. -/
theorem foldl_content (hx : ∀ e ∈ ents, e.expired now = false) :
    ents.foldl (View.after now) (.content s) =
      .content (applyAll s (ents.filterMap (edit setMode))) := by
  induction ents generalizing s with
  | nil => rfl
  | cons e ents ih =>
    obtain ⟨hfirst, hrest⟩ := List.forall_mem_cons.mp hx
    rw [List.foldl_cons]
    simp only [View.after, hfirst, Bool.false_eq_true, if_false]
    rw [ih hrest]
    cases hedit : edit setMode e with
    | none => simp [hedit, applyAll]
    | some d => simp [hedit, applyAll]

theorem foldl_content_of_content (now : ℤ) (ents : List Entry) (s : Map Unit) :
    ∃ s', ents.foldl (View.after now) (.content s) = .content s' := by
  induction ents generalizing s with
  | nil => exact ⟨s, rfl⟩
  | cons e ents ih => exact ih _

/-- Entries about other items do not bring an item back. -/
theorem foldl_missing {k : Bytes} (hents : ∀ e ∈ ents, ForItem e) (hk : ∀ e ∈ ents, e.value ≠ k)
    (hs : s[k]? = none) : (ents.foldl (View.after now) (.content s)).items[k]? = none := by
  induction ents generalizing s with
  | nil => exact hs
  | cons e ents ih =>
    obtain ⟨hitem, hitems⟩ := List.forall_mem_cons.mp hents
    obtain ⟨hne, hnes⟩ := List.forall_mem_cons.mp hk
    rw [List.foldl_cons]
    refine ih hitems hnes ?_
    split
    · exact Std.ExtTreeMap.getElem?_empty
    · obtain ⟨d, hedit, hkey, -⟩ := hitem.edit
      rw [hedit]
      exact (d.getElem?_apply s k).trans ((if_neg (by rw [hkey]; exact hne)).trans hs)

variable {init : List Entry} {last : Entry}

/-- If the last entry alone does what all of them do to the empty set and to the sets of one item,
and has not expired, then all are about its item and none has expired. -/
theorem all_about_last (hents : ∀ e ∈ init ++ [last], ForItem e) (hx : last.expired now = false)
    (hsame : ∀ s : Map Unit, s = ∅ ∨ (∃ z, s = (∅ : Map Unit).insert z ()) → ∀ k : Bytes,
      ((init ++ [last]).foldl (View.after now) (.content s)).items[k]? =
        ((View.content s).after now last).items[k]?) :
    ∀ e ∈ init ++ [last], e.value = last.value ∧ e.expired now = false := by
  obtain ⟨d, hedit, hkey, -⟩ := (hents last (by simp)).edit
  have hreplay : ∀ (s : Map Unit) (k : Bytes), last.value ≠ k →
      ((View.content s).after now last).items[k]? = s[k]? := by
    intro s k hk
    simp only [View.after, hx, Bool.false_eq_true, if_false, hedit]
    exact (d.getElem?_apply s k).trans (if_neg (by rw [hkey]; exact hk))
  have hfresh : ∀ e ∈ init ++ [last], e.expired now = false := by
    intro e he
    refine Bool.eq_false_iff.mpr fun hdead => ?_
    -- an item nobody names is lost at the expired entry, and only there
    obtain ⟨z, hz⟩ := Infinite.exists_notMem_finset ((init ++ [last]).map Entry.value).toFinset
    have hnot : ∀ e ∈ init ++ [last], e.value ≠ z := by
      intro e he heq
      exact hz (List.mem_toFinset.mpr (List.mem_map.mpr ⟨e, he, heq⟩))
    have hz := hsame ((∅ : Map Unit).insert z ()) (Or.inr ⟨z, rfl⟩) z
    rw [hreplay _ z (hnot last (by simp)), getElem?_insert, if_pos rfl] at hz
    obtain ⟨pre, post, hsplit⟩ := List.append_of_mem he
    rw [hsplit] at hnot hents hz
    obtain ⟨s', hs'⟩ := foldl_content_of_content now pre ((∅ : Map Unit).insert z ())
    rw [List.foldl_append, List.foldl_cons, hs', View.after, if_pos hdead, foldl_missing] at hz
    · cases hz
    · exact fun e he => hents e (by simp [he])
    · exact fun e he => hnot e (by simp [he])
    · exact Std.ExtTreeMap.getElem?_empty
  intro e he
  refine ⟨?_, hfresh e he⟩
  by_contra hne
  have hnamed : ∀ s : Map Unit, s = ∅ ∨ (∃ z, s = (∅ : Map Unit).insert z ()) →
      lastEffect e.value ((init ++ [last]).filterMap (edit setMode)) = some s[e.value]? := by
    intro s hs
    have hk := hsame s hs e.value
    rw [foldl_content hfresh, hreplay s _ (Ne.symm hne), View.items, getElem?_applyAll] at hk
    cases hlast : lastEffect e.value ((init ++ [last]).filterMap (edit setMode)) with
    | none =>
      obtain ⟨d, hd, hname, -⟩ := (hents e he).edit
      have hmem : d ∈ (init ++ [last]).filterMap (edit setMode) := List.mem_filterMap.mpr
        ⟨e, he, hd⟩
      exact absurd hname ((lastEffect_eq_none_iff _ _).mp hlast d hmem)
    | some r =>
      rw [hlast] at hk
      exact congrArg some hk
  have hnone := hnamed ∅ (Or.inl rfl)
  have hsome := hnamed ((∅ : Map Unit).insert e.value ()) (Or.inr ⟨_, rfl⟩)
  rw [hnone, getElem?_insert, if_pos rfl] at hsome
  simp at hsome

end Compare

section Queue

def Lone (q : PeerHintQ) (h : FanoutHint) : Prop := q.order = [h.id] ∧ q.items[h.id]? = some h

def flushTurns (addr : Bytes) (rounds : ℕ) : List Turn :=
  (List.replicate rounds [.peekHint addr, .replayHint true, .popHint]).flatten

/-- The entries that reach a peer in the end, if they are first enqueued as hints for it, each with
the ring generation it was sent in, and the flush loop then takes so many rounds. -/
def replayed (hintMaxPerPeer : ℤ) (peer : Peer) (ks key : Bytes) (sends : List (Entry × ℕ))
    (rounds : ℕ) : List Entry :=
  let enqueues := sends.map fun send => Turn.enqueueHint ⟨peer, ks, key, send.1, send.2⟩
  ((enqueues ++ flushTurns peer.addr rounds).foldl Hints.step
    (start false hintMaxPerPeer)).sent.map fun p => p.2.ent

variable {q : PeerHintQ} {h old : FanoutHint} {addr : Bytes} {s : Sys}

def Ordinary (ent : Entry) : Prop := ent.isTombstone = false ∧ ent.has flagBloomAdd = false

theorem ForItem.ordinary {ent : Entry} (hent : ForItem ent) : Ordinary ent := by
  rcases hent with hflags | hflags
  · exact ⟨(Entry.has_of_flags hflags _).trans rfl, (Entry.has_of_flags hflags _).trans rfl⟩
  · exact ⟨(Entry.has_of_flags hflags _).trans rfl, (Entry.has_of_flags hflags _).trans rfl⟩

theorem enqueue_of_ordinary (hintMax : ℕ) (hent : Ordinary h.ent) :
    q.enqueue hintMax h = q.file hintMax h := by
  simp [PeerHintQ.enqueue, PeerHintQ.dropAdds, PeerHintQ.deleted, hent.1, hent.2]

theorem lone_empty (hintMax : ℕ) (hent : Ordinary h.ent) :
    Lone (PeerHintQ.empty.enqueue hintMax h) h := by
  rw [enqueue_of_ordinary hintMax hent]
  unfold PeerHintQ.file
  by_cases hmem : h.id ∈ PeerHintQ.empty.items
  · rw [dif_pos hmem]
    exact absurd hmem (by simp [PeerHintQ.empty])
  · rw [dif_neg hmem]
    refine ⟨rfl, ?_⟩
    simp only [getElem?_insert, if_true]

/-- A newer hint of the same identity takes the place of the one that is queued. -/
theorem Lone.enqueue (hlone : Lone q old) (hintMax : ℕ) (hent : Ordinary h.ent)
    (hid : h.id = old.id) (hnew : hintNewer h.ent old.ent = true) :
    Lone (q.enqueue hintMax h) h := by
  obtain ⟨horder, hitem⟩ := hlone
  rw [← hid] at hitem horder
  have hmem : h.id ∈ q.items := Std.ExtTreeMap.mem_iff_isSome_getElem?.mpr (by rw [hitem]; rfl)
  have hthere : q.items[h.id] = old :=
    Option.some.inj ((Std.ExtTreeMap.getElem?_eq_some_getElem hmem).symm.trans hitem)
  rw [enqueue_of_ordinary hintMax hent, PeerHintQ.file, dif_pos hmem, hthere, if_pos hnew]
  exact ⟨horder, by simp only [getElem?_insert, if_true]⟩

/-- The flush loop is idle and has sent nothing, and one hint is queued for the address. -/
structure Holding (s : Sys) (addr : Bytes) (h : FanoutHint) : Prop where
  idle : s.flight = .idle
  unsent : s.sent = []
  enabled : s.pool.hintsDisabled = false ∧ s.pool.closed = false
  lone : ∃ q, s.pool.hints[addr]? = some q ∧ Lone q h

theorem Holding.enqueueHint (hs : Holding s addr old) (haddr : addr ≠ [])
    (hpeer : h.peer.addr = addr) (hent : Ordinary h.ent) (hid : h.id = old.id)
    (hnew : hintNewer h.ent old.ent = true) : Holding (Hints.step s (.enqueueHint h)) addr h := by
  obtain ⟨q, hq, hlone⟩ := hs.lone
  have hpool : s.pool.enqueueHint h =
      { s.pool with hints := s.pool.hints.insert addr (q.enqueue s.pool.hintMax h) } := by
    simp [FanoutPool.enqueueHint, FanoutPool.queue, hs.enabled.1, hs.enabled.2, hpeer, haddr, hq]
  refine ⟨hs.idle, hs.unsent, ?_, q.enqueue s.pool.hintMax h, ?_,
    hlone.enqueue s.pool.hintMax hent hid hnew⟩
  · rw [Hints.step, hpool]
    exact hs.enabled
  · rw [Hints.step, hpool]
    simp

theorem holding_first (hintMaxPerPeer : ℤ) (haddr : addr ≠ []) (hpeer : h.peer.addr = addr)
    (hent : Ordinary h.ent) :
    Holding (Hints.step (start false hintMaxPerPeer) (.enqueueHint h)) addr h := by
  let pool := newFanoutPool false hintMaxPerPeer
  have hpool : pool.enqueueHint h =
      { pool with hints := pool.hints.insert addr (PeerHintQ.empty.enqueue pool.hintMax h) } := by
    simp [FanoutPool.enqueueHint, FanoutPool.queue, pool, newFanoutPool, hpeer, haddr]
  refine ⟨rfl, rfl, ?_, PeerHintQ.empty.enqueue pool.hintMax h, ?_,
    lone_empty pool.hintMax hent⟩
  · rw [Hints.step]
    exact ⟨congrArg FanoutPool.hintsDisabled hpool, congrArg FanoutPool.closed hpool⟩
  · rw [Hints.step]
    refine (congrArg (fun p : FanoutPool => p.hints[addr]?) hpool).trans ?_
    simp

/-- A round of the flush loop with nothing queued for the address does nothing. -/
theorem flush_nothing (hidle : s.flight = .idle) (hnone : s.pool.peekHint addr = none)
    (rounds : ℕ) : (flushTurns addr rounds).foldl Hints.step s = s := by
  have hpeek : Hints.step s (.peekHint addr) = s := by simp [Hints.step, hnone]
  have hreplay : Hints.step s (.replayHint true) = s := by simp [Hints.step, hidle]
  have hpop : Hints.step s .popHint = s := by simp [Hints.step, hidle]
  induction rounds with
  | zero => rfl
  | succ rounds ih =>
    rw [flushTurns, List.replicate_succ, List.flatten_cons, List.foldl_append]
    simp only [List.foldl_cons, List.foldl_nil, hpeek, hreplay, hpop]
    exact ih

/-- The flush loop replays the one hint and is done. -/
theorem Holding.flush (hs : Holding s addr h) (rounds : ℕ) :
    ((flushTurns addr (rounds + 1)).foldl Hints.step s).sent = [(addr, h)] := by
  obtain ⟨q, hq, horder, hitem⟩ := hs.lone
  have hpeek : s.pool.peekHint addr = some h := by
    simp [FanoutPool.peekHint, PeerHintQ.peek, hq, horder, hitem]
  have hpop : s.pool.popHint addr h.id = { s.pool with hints := s.pool.hints.erase addr } := by
    simp [FanoutPool.popHint, PeerHintQ.pop, hq, horder]
  rw [flushTurns, List.replicate_succ, List.flatten_cons, List.foldl_append]
  have hround : [Turn.peekHint addr, .replayHint true, .popHint].foldl Hints.step s =
      ⟨{ s.pool with hints := s.pool.hints.erase addr }, .idle, [(addr, h)]⟩ := by
    simp [Hints.step, hs.idle, hs.unsent, hpeek, hpop]
  rw [hround]
  refine congrArg Sys.sent (flush_nothing rfl ?_ rounds)
  simp [FanoutPool.peekHint]

variable {peer : Peer} {sends : List (Entry × ℕ)}

/-- Of the entries for one name only the last stays queued. -/
theorem holding_foldl (hintMaxPerPeer : ℤ) (ks key : Bytes) (haddr : peer.addr ≠ [])
    {last : Entry × ℕ} (hents : ∀ send ∈ sends ++ [last], ForItem send.1)
    (hver : (sends ++ [last]).Pairwise fun a b => a.1.version < b.1.version) :
    Holding (((sends ++ [last]).map fun send =>
        Turn.enqueueHint ⟨peer, ks, key, send.1, send.2⟩).foldl Hints.step
          (start false hintMaxPerPeer)) peer.addr ⟨peer, ks, key, last.1, last.2⟩ := by
  induction sends using List.reverseRecOn generalizing last with
  | nil => exact holding_first hintMaxPerPeer haddr rfl (hents last (by simp)).ordinary
  | append_singleton sends prev ih =>
    have hprev := ih (fun send h => hents send (List.mem_append_left _ h))
      (List.pairwise_append.mp hver).1
    have hlt : prev.1.version < last.1.version :=
      (List.pairwise_append.mp hver).2.2 prev (by simp) last (by simp)
    have hsame : ∀ send ∈ sends ++ [prev] ++ [last], hintID ks key send.1 = ks ++ 0 :: key := by
      intro send h
      rw [hintID, (hents send h).ordinary.2, if_neg Bool.false_ne_true]
    rw [List.map_append, List.foldl_append]
    refine hprev.enqueueHint haddr rfl (hents last (by simp)).ordinary ?_ ?_
    · exact (hsame last (by simp)).trans (hsame prev (by simp)).symm
    · simp [hintNewer, hlt, hlt.ne']

/-- Of the entries for one set the peer hears only the last. -/
theorem replayed_eq (hintMaxPerPeer : ℤ) (ks key : Bytes) (haddr : peer.addr ≠ [])
    (hents : ∀ send ∈ sends, ForItem send.1)
    (hver : sends.Pairwise fun a b => a.1.version < b.1.version) (rounds : ℕ) :
    replayed hintMaxPerPeer peer ks key sends (rounds + 1) =
      (sends.getLast?.map Prod.fst).toList := by
  rcases sends.eq_nil_or_concat with rfl | ⟨sends, last, rfl⟩
  · rw [replayed]
    simp only [List.map_nil, List.nil_append]
    rw [flush_nothing rfl (by simp [start, newFanoutPool, FanoutPool.peekHint])]
    rfl
  · rw [List.concat_eq_append] at hents hver ⊢
    have hholding := holding_foldl hintMaxPerPeer ks key haddr hents hver
    rw [replayed, List.foldl_append, hholding.flush rounds]
    simp

end Queue

/-- A set of the peer that has not expired carries no other kind's flag. -/
def Unmixed (now : ℤ) (ks : KsRuntime) (key : Bytes) : Prop :=
  ∀ it, ks.store.lookup key = some it → it.entry.expired now = false →
    it.entry.isTombstone = false → it.entry.has flagSet = true → it.entry.flags = flagSet

variable {now : ℤ} {ks : KsRuntime} {key : Bytes} {init : List Entry} {last : Entry}

/-- Such a peer shows a view. -/
theorem exists_shows (h : Unmixed now ks key) : ∃ v, Shows now v (ks.store.lookup key) := by
  cases hlook : ks.store.lookup key with
  | none => exact ⟨.content ∅, rfl⟩
  | some it =>
    cases hx : it.entry.expired now with
    | true => exact ⟨.content ∅, Or.inl ⟨hx, rfl⟩⟩
    | false =>
      cases ht : it.entry.isTombstone with
      | true => exact ⟨.tombstone it.entry.version, hx, ht, rfl⟩
      | false =>
        cases hhas : it.entry.has flagSet with
        | false => exact ⟨.blocked, hx, ht, Or.inl hhas⟩
        | true =>
          have hflags := h it hlook hx ht hhas
          cases hload : setKind.load it with
          | none => exact ⟨.blocked, hx, ht, Or.inr ⟨hflags, hload⟩⟩
          | some s => exact ⟨.content s, Or.inr ⟨hflags, Entry.lasts_of_not_expired hx, hload⟩⟩

theorem unmixed_of_content {s : Map Unit} (h : Shows now (.content s) (ks.store.lookup key)) :
    Unmixed now ks key := by
  intro it hlook hx _ _
  rw [hlook] at h
  rcases h with ⟨hx', -⟩ | ⟨hflags, -, -⟩
  · exact absurd (hx'.symm.trans hx) (by simp)
  · exact hflags

/-- There are peers with no set and peers with any set of one item. -/
theorem exists_peer (now : ℤ) (key : Bytes) (s : Map Unit)
    (hs : s = ∅ ∨ ∃ z, s = (∅ : Map Unit).insert z ()) :
    ∃ ks : KsRuntime, Shows now (.content s) (ks.store.lookup key) := by
  rcases hs with rfl | ⟨z, rfl⟩
  · exact ⟨emptyKeySpace, rfl⟩
  · let ent : Entry := ⟨z, 1, 0, flagSetAdd⟩
    have hempty : Shows now (.content ∅) (emptyKeySpace.store.lookup key) := rfl
    have hview : (View.content ∅).after now ent = .content ((∅ : Map Unit).insert z ()) := by
      rw [View.after, (edit_of_add (show ent.flags = flagSetAdd from rfl)).2]
      rfl
    have hadded := shows_applyPut 0 noWalk hempty (show ForItem ent from Or.inl rfl)
    rw [hview] at hadded
    exact ⟨_, hadded⟩

section

variable (hents : ∀ e ∈ init ++ [last], ForItem e)
  (hver : (init ++ [last]).Pairwise fun a b => a.version < b.version)
include hents hver

/-- The last entry alone does to every view a peer can have what all the entries do. -/
theorem foldl_eq_after (h : last.expired now = true ∨
      ∀ e ∈ init ++ [last], e.value = last.value ∧ e.expired now = false) (v : View) (k : Bytes) :
    ((init ++ [last]).foldl (View.after now) v).items[k]? = (v.after now last).items[k]? := by
  rw [List.foldl_append, List.foldl_cons, List.foldl_nil]
  rcases h with hx | hall
  · rw [items_after_expired _ hx, items_after_expired _ hx]
  · have htouched : Touched last.value last.version v (init.foldl (View.after now) v) := by
      refine Touched.foldl (.same v) fun e he => ?_
      obtain ⟨hvalue, hx⟩ := hall e (List.mem_append_left _ he)
      exact ⟨hents e (List.mem_append_left _ he), hvalue, hx,
        (List.pairwise_append.mp hver).2.2 e he last (by simp)⟩
    exact htouched.items_after (hents last (by simp)) (hall last (by simp)).2 k

/-- Both runs on all peers, by way of what they make of the peers' views. -/
theorem replay_last_iff (key : Bytes) (ttl now : ℤ)
    : (∀ (ks : KsRuntime) (walk walk' : Entry → Walk), Unmixed now ks key → ∀ item,
        seen setMode (replicaRun setMode key ttl ks
          ([last].map fun ent => ⟨now, walk ent, ent⟩)).store now key item =
        seen setMode (replicaRun setMode key ttl ks
          ((init ++ [last]).map fun ent => ⟨now, walk' ent, ent⟩)).store now key item) ↔
      last.expired now = true ∨
        ∀ e ∈ init ++ [last], e.value = last.value ∧ e.expired now = false := by
  have hseen : ∀ {ks : KsRuntime} {v : View} {ents : List Entry} (walk : Entry → Walk),
      Shows now v (ks.store.lookup key) → (∀ e ∈ ents, ForItem e) → ∀ item,
      seen setMode (replicaRun setMode key ttl ks
          (ents.map fun ent => ⟨now, walk ent, ent⟩)).store now key item =
        (ents.foldl (View.after now) v).items[item]? := fun walk hshows hitems item =>
    seen_of_shows (shows_replicaRun ttl walk hshows hitems) item
  have hlast : ∀ e ∈ [last], ForItem e := fun e he => hents e (List.mem_append_right _ he)
  refine ⟨fun hsame => ?_, fun hcond ks walk walk' hplain item => ?_⟩
  · cases hx : last.expired now with
    | true => exact Or.inl rfl
    | false =>
      refine Or.inr (all_about_last hents hx fun s hs k => ?_)
      obtain ⟨ks, hshows⟩ := exists_peer now key s hs
      have hk := hsame ks (fun _ => noWalk) (fun _ => noWalk) (unmixed_of_content hshows) k
      rw [hseen _ hshows hlast, hseen _ hshows hents] at hk
      exact hk.symm
  · obtain ⟨v, hshows⟩ := exists_shows hplain
    rw [hseen walk hshows hlast, hseen walk' hshows hents, foldl_eq_after hents hver hcond v item]
    rfl

end

/-- Replaying what the queue has kept of a set's entries leaves every peer with the items that all
the entries, one after another, would have left it, exactly when the last entry has expired by
then or all entries are about its item and none has expired. -/
theorem replay_equiv_iff (hintMaxPerPeer : ℤ) (peer : Peer) (haddr : peer.addr ≠ [])
    (name key : Bytes) (sends : List (Entry × ℕ)) (hents : ∀ send ∈ sends, ForItem send.1)
    (hver : sends.Pairwise fun a b => a.1.version < b.1.version) (rounds : ℕ) (ttl now : ℤ) :
    (∀ (ks : KsRuntime) (walk walk' : Entry → Walk), Unmixed now ks key → ∀ item,
        seen setMode (replicaRun setMode key ttl ks
          ((replayed hintMaxPerPeer peer name key sends (rounds + 1)).map fun ent =>
            ⟨now, walk ent, ent⟩)).store now key item =
        seen setMode (replicaRun setMode key ttl ks
          ((sends.map Prod.fst).map fun ent => ⟨now, walk' ent, ent⟩)).store now key item) ↔
      ∀ last ∈ sends.getLast?, last.1.expired now = true ∨
        ∀ send ∈ sends, send.1.value = last.1.value ∧ send.1.expired now = false := by
  rw [replayed_eq hintMaxPerPeer name key haddr hents hver rounds]
  rcases sends.eq_nil_or_concat with rfl | ⟨init, last, rfl⟩
  · refine ⟨fun _ last hlast => ?_, fun _ _ _ _ _ _ => rfl⟩
    cases hlast
  · rw [List.concat_eq_append] at hents hver ⊢
    have hmap : (init ++ [last]).map Prod.fst = init.map Prod.fst ++ [last.1] := List.map_append
    have hcore := replay_last_iff (hmap ▸ List.forall_mem_map.mpr hents)
      (hmap ▸ List.pairwise_map.mpr hver) key ttl now
    rw [← hmap, List.forall_mem_map] at hcore
    rw [List.getLast?_append]
    simpa using hcore

/-- An item is added and removed again. -/
theorem replay_equiv_one_item :
    let sends : List (Entry × ℕ) := [(⟨[1], 1, 0, flagSetAdd⟩, 0), (⟨[1], 2, 0, flagSetRemove⟩, 0)]
    ∀ (ks : KsRuntime) (walk walk' : Entry → Walk), Unmixed 5 ks [107] → ∀ item,
      seen setMode (replicaRun setMode [107] 0 ks
        ((replayed 0 ⟨[97], [1]⟩ [] [107] sends 1).map fun ent =>
          ⟨5, walk ent, ent⟩)).store 5 [107] item =
      seen setMode (replicaRun setMode [107] 0 ks
        ((sends.map Prod.fst).map fun ent => ⟨5, walk' ent, ent⟩)).store 5 [107] item := by
  intro sends
  refine (replay_equiv_iff 0 ⟨[97], [1]⟩ (by decide) [] [107] sends ?_ ?_ 0 0 5).mpr ?_
  · simp [sends, ForItem]
  · simp [sends]
  · intro last hlast
    cases hlast
    refine Or.inr ?_
    decide

/-- Two items are added, and the peer hears of the second only. -/
theorem replay_drops_first_item :
    let sends : List (Entry × ℕ) := [(⟨[1], 1, 0, flagSetAdd⟩, 0), (⟨[2], 2, 0, flagSetAdd⟩, 0)]
    let reached := fun ents : List Entry => seen setMode (replicaRun setMode [107] 0 emptyKeySpace
      (ents.map fun ent => ⟨5, noWalk, ent⟩)).store 5 [107] [1]
    reached (replayed 0 ⟨[97], [1]⟩ [] [107] sends 2) = none ∧
      reached (sends.map Prod.fst) = some () := by
  intro sends reached
  exact ⟨by decide +kernel, by decide +kernel⟩

end Supercache.Handoff

import Supercache.Carriers
import Supercache.LruLike

/-!
One store against another. A likeness relates the items of two stores, so that they carry the same
entry up to bytes still to be written out. If it is kept by the few ways in which items are made
and changed, every call plans the same for related items.
-/
namespace Supercache

open Wire Lru JsonText

/-- The same effect on the list, the same count and the same answer. -/
structure Plan.Like {α β ρ : Type} (Q : α → β → Prop) (spent : ℕ → Prop) (old' : Option β)
    (p : Plan α ρ) (p' : Plan β ρ) : Prop where
  act : Act.Like Q spent old' p.act p'.act
  tally : p'.tally = p.tally
  ret : p'.ret = p.ret

section Plans

variable {α β ρ : Type} {Q : α → β → Prop} {spent : ℕ → Prop} {old' : Option β}

theorem Plan.like_skip (r : ρ) : Plan.Like Q spent old' (.skip r) (.skip r) := ⟨.keep, rfl, rfl⟩

theorem Plan.like_stale (r : ρ) : Plan.Like Q spent old' (.stale r) (.stale r) := ⟨.keep, rfl, rfl⟩

theorem Plan.like_drop (r : ρ) : Plan.Like Q spent old' (.drop r) (.drop r) := ⟨.remove, rfl, rfl⟩

end Plans

/-- `R` relates the items there are, `Q` the items that calls write; `spent key a`
holds of the cost the item `a` has under its key. -/
structure Likeness (α β : Type) [Stored α] [Stored β] where
  R : α → β → Prop
  Q : α → β → Prop
  spent : Bytes → α → ℕ → Prop
  same : ∀ {a b}, R a b → Q a b
  entry : ∀ {a b}, R a b → ∃ blob, Stored.entry b = { Stored.entry a with value := blob }
  value : ∀ {a b}, R a b → ∀ flag ∈ uncachedFlags, (Stored.entry a).has flag = true →
    (Stored.entry b).value = (Stored.entry a).value
  fresh : ∀ e, Q (Stored.fresh e) (Stored.fresh e)
  put : ∀ {a b}, R a b → ∀ e, Uncached e.flags → Q (Stored.put a e) (Stored.put b e)
  bits : ∀ {a b}, R a b → (Stored.entry a).has flagBloom = true → ∀ value,
    Q (Stored.put a { Stored.entry a with value := value })
      (Stored.put b { Stored.entry a with value := value })
  touch : ∀ {a b}, R a b → ∀ key front,
    Act.Like Q (spent key a) (some b) (Store.touch key a front) (Store.touch key b front)
  flush : ∀ {a b}, R a b → Stored.entry (Stored.flush b).1 = Stored.entry (Stored.flush a).1

namespace Likeness

variable {α β ρ : Type} [Stored α] [Stored β] (L : Likeness α β)

def Agree (key : Bytes) (v : Verb α ρ) (w : Verb β ρ) : Prop :=
  ∀ env old old', Option.Rel L.R old old' →
    Plan.Like L.Q (fun cost => ∀ a, old = some a → L.spent key a cost) old' (v env old)
      (w env old')

section Facts

variable {L} {a : α} {b : β} (h : L.R a b)

include h

theorem version_eq : (Stored.entry b).version = (Stored.entry a).version := by
  obtain ⟨blob, heq⟩ := L.entry h
  rw [heq]

theorem flags_eq : (Stored.entry b).flags = (Stored.entry a).flags := by
  obtain ⟨blob, heq⟩ := L.entry h
  rw [heq]

theorem expireAt_eq : (Stored.entry b).expireAt = (Stored.entry a).expireAt := by
  obtain ⟨blob, heq⟩ := L.entry h
  rw [heq]

theorem expired_eq (now : ℤ) : (Stored.entry b).expired now = (Stored.entry a).expired now := by
  simp only [Entry.expired, expireAt_eq h]

theorem has_eq (flag : ℕ) : (Stored.entry b).has flag = (Stored.entry a).has flag := by
  simp only [Entry.has, flags_eq h]

theorem isTombstone_eq : (Stored.entry b).isTombstone = (Stored.entry a).isTombstone :=
  has_eq h flagTombstone

theorem isNegative_eq : (Stored.entry b).isNegative = (Stored.entry a).isNegative :=
  has_eq h flagNegative

theorem entry_eq {flag : ℕ} (hflag : flag ∈ uncachedFlags)
    (hhas : (Stored.entry a).has flag = true) : Stored.entry b = Stored.entry a := by
  obtain ⟨blob, heq⟩ := L.entry h
  have hvalue := L.value h flag hflag hhas
  rw [heq] at hvalue ⊢
  rw [show blob = (Stored.entry a).value from hvalue]

theorem installGate_eq (flag version : ℕ) : Store.installGate flag version (Stored.entry b) =
      Store.installGate flag version (Stored.entry a) :=
  Store.installGate_congr (version_eq h) (flags_eq h) flag version

end Facts

section Plain

open Store

variable {L} {key : Bytes}

variable {a : α} {b : β}

/-- The costs that `touch` may use, among the items a verb finds. -/
theorem like_touch (h : L.R a b) (front : Bool) :
    Act.Like L.Q (fun cost => ∀ c, some a = some c → L.spent key c cost) (some b)
      (Store.touch key a front) (Store.touch key b front) := by
  refine (L.touch h key front).mono (fun _ _ => id) fun cost hspent c hc => ?_
  rw [← Option.some.inj hc]
  exact hspent

theorem agree_get : L.Agree key (Store.get key) (Store.get key) := by
  rintro env old old' (⟨h⟩ | _)
  · simp only [Store.get, expired_eq h, isTombstone_eq h, L.flush h]
    split
    · exact ⟨.remove, rfl, rfl⟩
    · split
      · exact ⟨.keep, rfl, rfl⟩
      · exact ⟨like_touch h true, rfl, rfl⟩
  · exact ⟨.keep, rfl, rfl⟩

theorem agree_peek : L.Agree key (peek key) (peek key) := by
  rintro env old old' (⟨h⟩ | _)
  · simp only [peek, expired_eq h, L.flush h]
    split
    · exact Plan.like_drop _
    · exact ⟨like_touch h false, rfl, rfl⟩
  · exact Plan.like_skip _

theorem agree_peekVersion : L.Agree key peekVersion peekVersion := by
  rintro env old old' (⟨h⟩ | _)
  · simp only [peekVersion, expired_eq h, version_eq h]
    split
    · exact Plan.like_drop _
    · exact Plan.like_skip _
  · exact Plan.like_skip _

theorem agree_set (e : Entry) : L.Agree key (Store.set key e) (Store.set key e) := by
  rintro env old old' (⟨h⟩ | _)
  · simp only [Store.set, replace]
    split
    · exact Plan.like_skip _
    · exact ⟨.write _ _ _ _ (L.fresh e), rfl, rfl⟩
  · simp only [Store.set, replace]
    split
    · exact Plan.like_skip _
    · exact ⟨.insert _ _ _ (L.fresh e), rfl, rfl⟩

theorem agree_acceptIfNewer (e : Entry) :
    L.Agree key (acceptIfNewer key e) (acceptIfNewer key e) := by
  rintro env old old' (⟨h⟩ | _)
  · simp only [acceptIfNewer, replace, expired_eq h, version_eq h]
    split
    · exact Plan.like_stale _
    · split
      · exact Plan.like_skip _
      · exact ⟨.write _ _ _ _ (L.fresh e), rfl, rfl⟩
  · simp only [acceptIfNewer, replace]
    split
    · exact Plan.like_skip _
    · exact ⟨.insert _ _ _ (L.fresh e), rfl, rfl⟩

theorem agree_acceptNegative (e : Entry) (hflags : Uncached e.flags) :
    L.Agree key (acceptNegative key e) (acceptNegative key e) := by
  rintro env old old' (⟨h⟩ | _)
  · simp only [acceptNegative, expired_eq h, isTombstone_eq h, isNegative_eq h, version_eq h]
    split
    · exact Plan.like_skip _
    · split
      · exact ⟨.write _ _ _ _ (L.put h e hflags), rfl, rfl⟩
      · split
        · split
          · exact Plan.like_stale _
          · exact ⟨.write _ _ _ _ (L.put h e hflags), rfl, rfl⟩
        · split
          · exact Plan.like_skip _
          · split
            · exact Plan.like_stale _
            · exact ⟨.write _ _ _ _ (L.put h e hflags), rfl, rfl⟩
  · simp only [acceptNegative]
    split
    · exact Plan.like_skip _
    · exact ⟨.insert _ _ _ (L.fresh e), rfl, rfl⟩

theorem agree_delete : L.Agree key delete delete := by
  rintro env old old' (⟨h⟩ | _)
  · exact Plan.like_drop _
  · exact Plan.like_skip _

theorem agree_deleteIfVersion (v : ℕ) :
    L.Agree key (deleteIfVersion key v) (deleteIfVersion key v) := by
  rintro env old old' (⟨h⟩ | _)
  · have hflags : Uncached (tombstone env v).flags :=
      uncached_of_mem (show flagTombstone ∈ _ by decide)
    simp only [deleteIfVersion, expired_eq h, version_eq h]
    split
    · exact Plan.like_stale _
    · exact ⟨.write _ _ _ _ (L.put h _ hflags), rfl, rfl⟩
  · exact ⟨.insert _ _ _ (L.fresh _), rfl, rfl⟩

variable {flag : ℕ}

theorem agree_readLive (hflag : flag ∈ uncachedFlags) (miss : ρ) (f : Entry → ρ) :
    L.Agree key (readLive flag miss f) (readLive flag miss f) := by
  rintro env old old' (⟨h⟩ | _)
  · simp only [readLive, expired_eq h, isTombstone_eq h, has_eq h]
    split
    · exact Plan.like_drop _
    · split
      · exact Plan.like_skip _
      next hlive =>
        simp only [not_or, Bool.not_eq_true, Bool.not_eq_false'] at hlive
        rw [entry_eq h hflag hlive.2]
        exact Plan.like_skip _
  · exact Plan.like_skip _

/-- Without a look at the entry's bytes, the flag may be that of any mode. -/
theorem agree_readLive_const (miss r : ρ) :
    L.Agree key (readLive flag miss fun _ => r) (readLive flag miss fun _ => r) := by
  rintro env old old' (⟨h⟩ | _)
  · simp only [readLive, expired_eq h, isTombstone_eq h, has_eq h]
    split
    · exact Plan.like_drop _
    · split
      · exact Plan.like_skip _
      · exact Plan.like_skip _
  · exact Plan.like_skip _

theorem agree_plainInstall {gate : Entry → Option Tally}
    (hgate : ∀ {a : α} {b : β}, L.R a b → gate (Stored.entry b) = gate (Stored.entry a))
    (blob : Bytes) (version : ℕ) (expireAt : ℤ) :
    L.Agree key (plainInstall gate flag key blob version expireAt)
      (plainInstall gate flag key blob version expireAt) := by
  rintro env old old' (⟨h⟩ | _)
  · simp only [plainInstall, expired_eq h, hgate h]
    split
    · exact ⟨.insert _ _ _ (L.fresh _), rfl, rfl⟩
    · split
      · exact ⟨.keep, rfl, rfl⟩
      · exact ⟨.insert _ _ _ (L.fresh _), rfl, rfl⟩
  · exact ⟨.insert _ _ _ (L.fresh _), rfl, rfl⟩

theorem like_writeOver {spent : ℕ → Prop} {old' : Option β} (h : L.R a b)
    (hflag : flag ∈ uncachedFlags) (blob : Bytes) (expireAt : ℤ) (mode : WriteMode) :
    Act.Like L.Q spent old' (writeOver key a blob flag expireAt mode)
      (writeOver key b blob flag expireAt mode) := by
  simp only [writeOver, version_eq h, rewritten, expireAt_eq h]
  exact .write _ _ _ _ (L.put h _ (uncached_of_mem hflag))

theorem agree_mutatePlain (hflag : flag ∈ uncachedFlags) (version : ℕ) (expireAt : ℤ)
    (refused : ρ) (op : Option Bytes → Outcome ρ) :
    L.Agree key (mutatePlain flag key version expireAt refused op)
      (mutatePlain flag key version expireAt refused op) := by
  rintro env old old' (⟨h⟩ | _)
  · simp only [mutatePlain, expired_eq h, isTombstone_eq h, has_eq h, version_eq h]
    split
    · split
      · exact Plan.like_drop _
      · exact ⟨.insert _ _ _ (L.fresh _), rfl, rfl⟩
    · split
      · split
        · exact Plan.like_stale _
        · split
          · exact Plan.like_skip _
          · exact ⟨like_writeOver h hflag _ expireAt clamped, rfl, rfl⟩
      · split
        next hhas =>
          rw [entry_eq h hflag hhas]
          split
          · exact Plan.like_skip _
          · exact ⟨like_writeOver h hflag _ expireAt clamped, rfl, rfl⟩
        · exact Plan.like_skip _
  · simp only [mutatePlain]
    split
    · exact Plan.like_drop _
    · exact ⟨.insert _ _ _ (L.fresh _), rfl, rfl⟩

theorem agree_removePlain (hflag : flag ∈ uncachedFlags) (version : ℕ) (expireAt : ℤ)
    (op : Bytes → Option Bytes) : L.Agree key (removePlain flag key version expireAt op)
      (removePlain flag key version expireAt op) := by
  rintro env old old' (⟨h⟩ | _)
  · simp only [removePlain, expired_eq h, isTombstone_eq h, has_eq h, version_eq h]
    split
    · exact Plan.like_drop _
    · split
      · split
        · exact Plan.like_stale _
        · exact Plan.like_skip _
      · split
        · exact Plan.like_skip _
        next hhas =>
          rw [entry_eq h hflag (by simpa using hhas)]
          split
          · exact Plan.like_skip _
          · exact ⟨like_writeOver h hflag _ expireAt _, rfl, rfl⟩
  · exact Plan.like_skip _

theorem agree_cIncr (delta : ℤ) (version : ℕ) (expireAt : ℤ) :
    L.Agree key (cIncr key delta version expireAt) (cIncr key delta version expireAt) := by
  have hflag : flagCounter ∈ uncachedFlags := by decide
  rintro env old old' (⟨h⟩ | _)
  · simp only [cIncr, expired_eq h, isTombstone_eq h, has_eq h, version_eq h]
    split
    · exact ⟨.insert _ _ _ (L.fresh _), rfl, rfl⟩
    · split
      · split
        · exact Plan.like_stale _
        · exact ⟨.insert _ _ _ (L.fresh _), rfl, rfl⟩
      · split
        · exact Plan.like_skip _
        next hhas =>
          rw [entry_eq h hflag (by simpa using hhas)]
          split
          · exact Plan.like_skip _
          · split
            · exact Plan.like_skip _
            · exact ⟨like_writeOver h hflag _ expireAt inPlace, rfl, rfl⟩
  · exact ⟨.insert _ _ _ (L.fresh _), rfl, rfl⟩

theorem agree_bloomMutate (m k version : ℕ) (expireAt : ℤ) (f : Bloom.Filter → Bloom.Filter) :
    L.Agree key (bloomMutate key m k version expireAt f)
      (bloomMutate key m k version expireAt f) := by
  have hflag : flagBloom ∈ uncachedFlags := by decide
  rintro env old old' (⟨h⟩ | _)
  · simp only [bloomMutate, expired_eq h, isTombstone_eq h, has_eq h, version_eq h]
    split
    · split
      · exact Plan.like_drop _
      · exact ⟨.insert _ _ _ (L.fresh _), rfl, rfl⟩
    · split
      · split
        · exact Plan.like_stale _
        · split
          · exact Plan.like_drop _
          · exact ⟨.insert _ _ _ (L.fresh _), rfl, rfl⟩
      · split
        · exact Plan.like_skip _
        next hhas =>
          rw [L.value h flagBloom hflag (by simpa using hhas)]
          split
          · exact Plan.like_skip _
          · simp only [expireAt_eq h, flags_eq h]
            exact ⟨.amend _ _ _ (L.bits h (by simpa using hhas) _), rfl, rfl⟩
  · simp only [bloomMutate]
    split
    · exact Plan.like_drop _
    · exact ⟨.insert _ _ _ (L.fresh _), rfl, rfl⟩

end Plain

/-- Carriers of one mode that read the same from related items and write related items. -/
structure Carries {σ : Type} (L : Likeness α β) (C : Carrier α σ) (C' : Carrier β σ) : Prop where
  flag : C'.flag = C.flag
  new : C'.new = C.new
  encode : C'.encode = C.encode
  decode : C'.decode = C.decode
  load : ∀ {a b}, L.R a b → (Stored.entry a).has C.flag = true → C'.load b = C.load a
  note : ∀ {a b} {spent : ℕ → Prop}, L.R a b → (Stored.entry a).has C.flag = true →
    ∀ s, C.load a = some s → Act.Like L.Q spent (some b) (C.note a s) (C'.note b s)
  commit : ∀ {a b} {spent : ℕ → Prop}, L.R a b → (Stored.entry a).has C.flag = true →
    ∀ key s version expireAt,
      Act.Like L.Q spent (some b) (C.commit key a s version expireAt)
        (C'.commit key b s version expireAt)
  item : ∀ e s, L.Q (C.item e s) (C'.item e s)

section Carrier

variable {L} {σ : Type} {C : Carrier α σ} {C' : Carrier β σ} (hC : L.Carries C C') {key : Bytes}

include hC

theorem like_create {spent : ℕ → Prop} {old' : Option β} (version : ℕ) (expireAt : ℤ)
    (f : σ → Option σ) : Plan.Like L.Q spent old' (C.create key version expireAt f)
      (C'.create key version expireAt f) := by
  simp only [Carrier.create, hC.flag, hC.new, hC.encode]
  split
  · exact Plan.like_drop _
  · exact ⟨.insert _ _ _ (hC.item _ _), rfl, rfl⟩

section

variable (version : ℕ) (expireAt : ℤ) (stored : Option ℕ → ℕ) (f : σ → Option σ)

theorem agree_mutate :
    L.Agree key (C.mutate key version expireAt stored f)
      (C'.mutate key version expireAt stored f) := by
  rintro env old old' (⟨h⟩ | _)
  · simp only [Carrier.mutate, expired_eq h, isTombstone_eq h, hC.flag, has_eq h, version_eq h]
    split
    · exact like_create hC _ expireAt f
    · split
      · split
        · exact Plan.like_stale _
        · exact like_create hC _ expireAt f
      · split
        next hhas =>
          rw [hC.load h hhas]
          split
          · exact Plan.like_skip _
          · split
            · exact Plan.like_skip _
            · exact ⟨hC.commit h hhas key _ _ expireAt, rfl, rfl⟩
        · exact Plan.like_skip _
  · exact like_create hC _ expireAt f

theorem agree_removeVerb :
    L.Agree key (C.removeVerb key version expireAt stored f)
      (C'.removeVerb key version expireAt stored f) := by
  intro env old old' hold
  have hmutate : Plan.Like L.Q (fun cost => ∀ a, old = some a → L.spent key a cost) old'
      (C.mutate key version expireAt stored f env old)
      (C'.mutate key version expireAt stored f env old') :=
    agree_mutate hC version expireAt stored f env old old' hold
  cases hold with
  | some h =>
    simp only [Carrier.removeVerb, expired_eq h, isTombstone_eq h, hC.flag, has_eq h,
      version_eq h]
    split
    · exact Plan.like_drop _
    · split
      · split
        · exact Plan.like_stale _
        · exact Plan.like_skip _
      · split
        · exact Plan.like_skip _
        · exact hmutate
  | none => exact Plan.like_skip _

end

theorem agree_read (miss : ρ) (f : σ → ρ) : L.Agree key (C.read miss f) (C'.read miss f) := by
  rintro env old old' (⟨h⟩ | _)
  · simp only [Carrier.read, expired_eq h, isTombstone_eq h, hC.flag, has_eq h]
    split
    · exact Plan.like_drop _
    · split
      · exact Plan.like_skip _
      next hlive =>
        simp only [not_or, Bool.not_eq_true, Bool.not_eq_false'] at hlive
        rw [hC.load h hlive.2]
        split
        · exact Plan.like_skip _
        next s hload =>
          exact ⟨hC.note h hlive.2 s hload, rfl, rfl⟩
  · exact Plan.like_skip _

theorem agree_install {gate : Entry → Option Tally}
    (hgate : ∀ {a : α} {b : β}, L.R a b → gate (Stored.entry b) = gate (Stored.entry a))
    (blob : Bytes) (version : ℕ) (expireAt : ℤ) :
    L.Agree key (C.install gate key blob version expireAt)
      (C'.install gate key blob version expireAt) := by
  rintro env old old' (⟨h⟩ | _)
  · simp only [Carrier.install, expired_eq h, hgate h, hC.flag, hC.decode]
    cases C.decode blob with
    | none =>
      split
      · exact Plan.like_drop _
      · split
        · exact ⟨.keep, rfl, rfl⟩
        · exact Plan.like_drop _
    | some s =>
      split
      · exact ⟨.insert _ _ _ (hC.item _ _), rfl, rfl⟩
      · split
        · exact ⟨.keep, rfl, rfl⟩
        · exact ⟨.insert _ _ _ (hC.item _ _), rfl, rfl⟩
  · simp only [Carrier.install, hC.flag, hC.decode]
    split
    · exact Plan.like_drop _
    · exact ⟨.insert _ _ _ (hC.item _ _), rfl, rfl⟩

theorem agree_pop (version : ℕ) (expireAt : ℤ) (take : σ → Option (Bytes × σ)) :
    L.Agree key (C.pop key version expireAt take) (C'.pop key version expireAt take) := by
  rintro env old old' (⟨h⟩ | _)
  · simp only [Carrier.pop, expired_eq h, isTombstone_eq h, hC.flag, has_eq h, version_eq h]
    split
    · exact Plan.like_drop _
    · split
      · split
        · exact Plan.like_stale _
        · exact Plan.like_skip _
      · split
        · exact Plan.like_skip _
        next hhas =>
          rw [hC.load h (by simpa using hhas)]
          split
          · exact Plan.like_skip _
          · split
            · exact Plan.like_skip _
            · exact ⟨hC.commit h (by simpa using hhas) key _ _ expireAt, rfl, rfl⟩
  · exact Plan.like_skip _

end Carrier

structure CarriesDoc (L : Likeness α β) (D : DocCarrier α) (D' : DocCarrier β) : Prop where
  clean : ∀ {a b}, L.R a b → (Stored.entry a).has flagJSON = true → D'.clean b = D.clean a
  value : ∀ {a b}, L.R a b → (Stored.entry a).has flagJSON = true → D.clean a = true →
    (Stored.entry b).value = (Stored.entry a).value
  doc : ∀ {a b}, L.R a b → (Stored.entry a).has flagJSON = true →
    Option.Rel (fun p q => q.1 = p.1 ∧ L.R p.2 q.2) (D.doc a) (D'.doc b)
  replaced : ∀ {a b}, L.R a b → ∀ doc version expireAt,
    L.Q (D.replaced a doc version expireAt) (D'.replaced b doc version expireAt) ∧
    Stored.entry (D'.replaced b doc version expireAt) =
      Stored.entry (D.replaced a doc version expireAt)
  item : ∀ e doc, L.Q (D.item e doc) (D'.item e doc)

section Document

variable {L} {D : DocCarrier α} {D' : DocCarrier β} (hD : L.CarriesDoc D D') {key : Bytes}

include hD

variable {spent : ℕ → Prop} {old' : Option β}

theorem like_commitReplace {a : α} {b : β} (h : L.R a b) (doc : Json) (stored : ℕ)
    (expireAt maxValue : ℤ) :
    Plan.Like L.Q spent old' (D.commitReplace key a doc stored expireAt maxValue)
      (D'.commitReplace key b doc stored expireAt maxValue) := by
  obtain ⟨hreplaced, hentry⟩ := hD.replaced h doc stored expireAt
  simp only [DocCarrier.commitReplace, hentry]
  split
  · exact ⟨.amend _ _ _ (L.same h), rfl, rfl⟩
  · exact ⟨.write _ _ _ _ hreplaced, rfl, rfl⟩

theorem like_commitInsert (doc : Json) (stored : ℕ) (expireAt maxValue : ℤ) :
    Plan.Like L.Q spent old' (D.commitInsert key doc stored expireAt maxValue)
      (D'.commitInsert key doc stored expireAt maxValue) := by
  simp only [DocCarrier.commitInsert]
  split
  · exact Plan.like_drop _
  · exact ⟨.insert _ _ _ (hD.item _ _), rfl, rfl⟩

theorem agree_docSet (path raw : Bytes) (version : ℕ) (expireAt maxValue : ℤ) :
    L.Agree key (D.set key path raw version expireAt maxValue)
      (D'.set key path raw version expireAt maxValue) := by
  intro env old old' hold
  simp only [DocCarrier.set]
  split
  next val p hval hp =>
    cases hold with
    | none =>
      simp only
      split
      · exact Plan.like_drop _
      · exact like_commitInsert hD _ 1 expireAt maxValue
    | some h =>
      simp only [expired_eq h, isTombstone_eq h, has_eq h, version_eq h]
      split
      · split
        · exact Plan.like_drop _
        · exact like_commitInsert hD _ 1 expireAt maxValue
      · split
        · split
          · exact Plan.like_stale _
          · split
            · exact Plan.like_skip _
            · exact like_commitReplace hD h _ _ expireAt maxValue
        · split
          · exact Plan.like_skip _
          next hhas =>
            have hdoc := hD.doc h (by simpa using hhas)
            generalize D.doc _ = found at hdoc ⊢
            generalize D'.doc _ = found' at hdoc ⊢
            cases hdoc with
            | none => exact Plan.like_skip _
            | some hp =>
              obtain ⟨hfst, hR⟩ := hp
              simp only [hfst, version_eq hR]
              split
              · exact ⟨.amend _ _ _ (L.same hR), rfl, rfl⟩
              · exact like_commitReplace hD hR _ _ expireAt maxValue
  · exact Plan.like_skip _

theorem agree_docDel (path : Bytes) (version : ℕ) (expireAt : ℤ) :
    L.Agree key (D.del key path version expireAt) (D'.del key path version expireAt) := by
  rintro env old old' (⟨h⟩ | _)
  · simp only [DocCarrier.del, expired_eq h, isTombstone_eq h, has_eq h, version_eq h]
    split
    · exact Plan.like_drop _
    · split
      · split
        · exact Plan.like_stale _
        · exact Plan.like_skip _
      · split
        · exact Plan.like_skip _
        next hhas =>
          split
          · exact Plan.like_skip _
          · have hdoc := hD.doc h (by simpa using hhas)
            generalize D.doc _ = found at hdoc ⊢
            generalize D'.doc _ = found' at hdoc ⊢
            cases hdoc with
            | none => exact Plan.like_skip _
            | some hp =>
              obtain ⟨hfst, hR⟩ := hp
              simp only [hfst, version_eq hR]
              split
              · exact ⟨.amend _ _ _ (L.same hR), rfl, rfl⟩
              · simp only [(hD.replaced hR _ _ expireAt).2]
                exact ⟨.write _ _ _ _ (hD.replaced hR _ _ expireAt).1, rfl, rfl⟩
  · exact Plan.like_skip _

theorem agree_docGet (path : Bytes) : L.Agree key (D.get path) (D'.get path) := by
  rintro env old old' (⟨h⟩ | _)
  · simp only [DocCarrier.get, expired_eq h, isTombstone_eq h, has_eq h]
    split
    · exact Plan.like_drop _
    · split
      · exact Plan.like_skip _
      next hlive =>
        simp only [not_or, Bool.not_eq_true, Bool.not_eq_false'] at hlive
        split
        · exact Plan.like_skip _
        · rw [hD.clean h hlive.2]
          split
          next hroot =>
            rw [hD.value h hlive.2 hroot.2]
            exact Plan.like_skip _
          · have hdoc := hD.doc h hlive.2
            generalize D.doc _ = found at hdoc ⊢
            generalize D'.doc _ = found' at hdoc ⊢
            cases hdoc with
            | none => exact Plan.like_skip _
            | some hp =>
              obtain ⟨hfst, hR⟩ := hp
              simp only [hfst]
              exact ⟨.amend _ _ _ (L.same hR), rfl, rfl⟩
  · exact Plan.like_skip _

theorem agree_docInstall (blob : Bytes) (version : ℕ) (expireAt : ℤ) :
    L.Agree key (D.install key blob version expireAt) (D'.install key blob version expireAt) := by
  intro env old old' hold
  simp only [DocCarrier.install]
  split
  · exact Plan.like_skip _
  · cases hold with
    | none => exact ⟨.insert _ _ _ (hD.item _ _), rfl, rfl⟩
    | some h =>
      simp only [expired_eq h, installGate_eq h]
      split
      · exact ⟨.insert _ _ _ (hD.item _ _), rfl, rfl⟩
      · split
        · exact ⟨.keep, rfl, rfl⟩
        · exact ⟨.insert _ _ _ (hD.item _ _), rfl, rfl⟩

end Document

structure Matches (L : Likeness α β) (B : Backend α) (B' : Backend β) : Prop where
  slot : ∀ m : Mode, L.Carries (B.slot m) (B'.slot m)
  doc : L.CarriesDoc B.doc B'.doc

section Table

open Store

variable {L} {key : Bytes} {B : Backend α} {B' : Backend β}

variable {v : Verb α ρ} {w : Verb β ρ}

theorem Agree.map {τ : Type} (h : L.Agree key v w) (f : ρ → τ) :
    L.Agree key (v.map f) (w.map f) := by
  intro env old old' hold
  obtain ⟨hact, htally, hret⟩ := h env old old' hold
  refine ⟨hact, htally, ?_⟩
  simp only [Verb.map, hret]

end Table

end Likeness

def PlainCall.Pure : PlainCall → Prop
  | acceptNegative e => Uncached e.flags
  | _ => True

def Call.Pure : Call → Prop
  | plain c => c.Pure
  | cached _ => True

namespace Likeness

open Store

variable {α β : Type} [Stored α] [Stored β] {L : Likeness α β} {key : Bytes}

theorem agree_form {ρ : Type} {v : (α : Type) → [Stored α] → Verb α ρ} (h : PlainForm key v) :
    L.Agree key (v α) (v β) := by
  induction h with
  | skip r => exact fun _ _ _ _ => Plan.like_skip r
  | readLive _ hflag miss f => exact agree_readLive hflag miss f
  | install _ hgate blob v x =>
    exact agree_plainInstall (fun h => hgate _ _ (version_eq h) (flags_eq h)) blob v x
  | cIncr delta v x => exact agree_cIncr delta v x
  | bloom m k v x => exact agree_bloomMutate m k v x _
  | mutate hflag v x refused op => exact agree_mutatePlain hflag v x refused op
  | remove hflag v x op => exact agree_removePlain hflag v x op
  | map f _ ih => exact ih.map f
  | ite c _ _ ihv ihw =>
    intro env old old' hold
    split
    · exact ihv env old old' hold
    · exact ihw env old old' hold

theorem agree_plain (c : PlainCall) (hpure : c.Pure) :
    L.Agree key (c.verb key : Verb α Ret) (c.verb key : Verb β Ret) := by
  by_cases hc : c.keyValue = false
  · exact agree_form (c.form key hc)
  · cases c with
    | get => exact agree_get.map _
    | peek => exact agree_peek.map _
    | peekVersion => exact agree_peekVersion.map _
    | set e => exact (agree_set e).map _
    | acceptIfNewer e => exact (agree_acceptIfNewer e).map _
    | acceptNegative e => exact (agree_acceptNegative e hpure).map _
    | delete => exact agree_delete.map _
    | deleteIfVersion v => exact (agree_deleteIfVersion v).map _
    | _ => exact absurd rfl hc

variable {B : Backend α} {B' : Backend β}

/-- Carriers that match make every cached call agree. -/
theorem agree_cached (hB : L.Matches B B') (c : CachedCall) :
    L.Agree key (B.cachedVerb key c) (B'.cachedVerb key c) := by
  cases c with
  | setAdd | zAdd | geoAdd | lPush | rPush | hSet => exact (agree_mutate (hB.slot _) _ _ _ _).map _
  | setRemove | zRem | geoRem | hDel => exact (agree_removeVerb (hB.slot _) _ _ _ _).map _
  | lPop | rPop => exact (agree_pop (hB.slot _) _ _ _).map _
  | setContains | hasSet | setCard | setMembers => exact (agree_read (hB.slot _) _ _).map _
  | zScore | zCard | hasZSet | zRange | zRangeByScore => exact (agree_read (hB.slot _) _ _).map _
  | geoPos | geoCard | hasGeo | geoDist | geoRadius => exact (agree_read (hB.slot _) _ _).map _
  | lLen | hasList | lIndex | lRange => exact (agree_read (hB.slot _) _ _).map _
  | hGet | hExists | hLen | hasHash | hGetAll => exact (agree_read (hB.slot _) _ _).map _
  | setInstall blob v x =>
    refine (agree_install (hB.slot _) (fun h => ?_) blob v x).map _
    simp only [setInstallGate, version_eq h, isTombstone_eq h, has_eq h]
  | zInstall blob v x =>
    exact (agree_install (hB.slot _) (fun h => installGate_eq h flagZSet v) blob v x).map _
  | geoInstall blob v x =>
    exact (agree_install (hB.slot _) (fun h => installGate_eq h flagGeo v) blob v x).map _
  | lInstall blob v x =>
    exact (agree_install (hB.slot _) (fun h => installGate_eq h flagList v) blob v x).map _
  | hInstall blob v x =>
    exact (agree_install (hB.slot _) (fun h => installGate_eq h flagHash v) blob v x).map _
  | jSet path raw v x maxValue => exact (agree_docSet hB.doc path raw v x maxValue).map _
  | jDel path v x => exact (agree_docDel hB.doc path v x).map _
  | jGet path => exact (agree_docGet hB.doc path).map _
  | hasJSON => exact (agree_readLive_const false true).map _
  | jInstall blob v x => exact (agree_docInstall hB.doc blob v x).map _

/-- Every call plans the same for related items. -/
theorem agree_verb (hB : L.Matches B B') (c : Call) (hpure : c.Pure) :
    L.Agree key (B.verb key c) (B'.verb key c) := by
  cases c with
  | plain c => exact agree_plain c hpure
  | cached c => exact agree_cached hB c

end Likeness

end Supercache

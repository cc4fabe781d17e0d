import Supercache.JsonPaths

/-!
Documents in memory. A value is a scalar or a reference to a cell, which holds
the elements of an array or the members of an object. Writing and deleting copy
the document and change the copy in place. The copy lies in cells of its own, so
the cells that were there before stay as they are.
-/
namespace Supercache.JsonHeap

open Wire JsonText JsonX

section Memory

inductive Val where
  | null
  | bool (b : Bool)
  | num (lit : Bytes)
  | str (s : Text)
  | arr (a : ℕ)
  | obj (a : ℕ)
deriving DecidableEq, Repr

inductive Cell where
  | arr (xs : List Val)
  | obj (fs : List (Text × Val))
deriving DecidableEq, Repr

abbrev Heap := List Cell

def lookup (k : Text) (fs : List (Text × Val)) : Option Val := (fs.find? (·.1 = k)).map (·.2)

def erase (k : Text) (fs : List (Text × Val)) : List (Text × Val) := fs.filter (·.1 ≠ k)

def insert (k : Text) (v : Val) (fs : List (Text × Val)) : List (Text × Val) :=
  (k, v) :: erase k fs

def Heap.elems (h : Heap) : Val → Option (ℕ × List Val)
  | .arr a =>
    match h[a]? with
    | some (.arr xs) => some (a, xs)
    | _ => none
  | _ => none

def Heap.members (h : Heap) : Val → Option (ℕ × List (Text × Val))
  | .obj a =>
    match h[a]? with
    | some (.obj fs) => some (a, fs)
    | _ => none
  | _ => none

def Cell.assign (s : Seg) (v : Val) : Cell → Cell
  | .arr xs =>
    match s with
    | .index n => .arr (xs.set n.toNat v)
    | .key _ => .arr xs
  | .obj fs =>
    match s with
    | .index _ => .obj fs
    | .key k => .obj (insert k v fs)

def Heap.store (h : Heap) (a : ℕ) (s : Seg) (v : Val) : Heap := h.modify a (Cell.assign s v)

def Heap.delete (h : Heap) (a : ℕ) (k : Text) : Heap :=
  h.modify a fun
    | .arr xs => .arr xs
    | .obj fs => .obj (erase k fs)

def thread {α β : Type} (f : Heap → α → Option (Heap × β)) :
    Heap → List α → Option (Heap × List β)
  | h, [] => some (h, [])
  | h, x :: xs =>
    (f h x).bind fun r => (thread f r.1 xs).map fun rest => (rest.1, r.2 :: rest.2)

def clone : ℕ → Heap → Val → Option (Heap × Val)
  | 0, _, _ => none
  | fuel + 1, h, v =>
    match v with
    | .arr a =>
      match h[a]? with
      | some (.arr xs) =>
        (thread (clone fuel) h xs).map fun r => (r.1 ++ [.arr r.2], .arr r.1.length)
      | _ => none
    | .obj a =>
      match h[a]? with
      | some (.obj fs) =>
        (thread (fun h f => (clone fuel h f.2).map fun r => (r.1, (f.1, r.2))) h fs).map
          fun r => (r.1 ++ [.obj r.2], .obj r.1.length)
      | _ => none
    | v => some (h, v)

end Memory

section Operations

def andThen (r : Heap × Except Err Val) (f : Heap → Val → Heap × Val) : Heap × Except Err Val :=
  match r with
  | (h, .error e) => (h, .error e)
  | (h, .ok v) => ((f h v).1, .ok (f h v).2)

def createPath (val : Val) : Path → Heap → Heap × Except Err Val
  | [], h => (h, .ok val)
  | .index _ :: _, h => (h, .error .type)
  | .key k :: rest, h =>
    andThen (createPath val rest h) fun h child => (h ++ [.obj [(k, child)]], .obj h.length)

/-- The elements of an array and the members of an object are assigned in place;
an append makes a new array. -/
def setRec (val : Val) : Path → Heap → Val → Heap × Except Err Val
  | [], h, _ => (h, .ok val)
  | .index n :: rest, h, cur =>
    match h.elems cur with
    | none => (h, .error .type)
    | some (a, xs) =>
      if n < 0 then (h, .error .index)
      else
        match xs[n.toNat]? with
        | some x => andThen (setRec val rest h x) fun h child => (h.store a (.index n) child, cur)
        | none =>
          if n = xs.length then
            andThen (createPath val rest h) fun h child =>
              (h ++ [.arr (xs ++ [child])], .arr h.length)
          else (h, .error .index)
  | .key k :: rest, h, cur =>
    match h.members cur with
    | none => (h, .error .type)
    | some (a, fs) =>
      match lookup k fs with
      | none => andThen (createPath val rest h) fun h child => (h.store a (.key k) child, cur)
      | some x => andThen (setRec val rest h x) fun h child => (h.store a (.key k) child, cur)

def set (fuel : ℕ) (h : Heap) (doc : Val) (p : Path) (val : Val) :
    Option (Heap × Except Err Val) :=
  if p = [] then some (h, .ok val)
  else if doc = .null then some (h, .error .type)
  else (clone fuel h doc).map fun r => setRec val p r.1 r.2

/-- The value without a node, and whether there was one. An element is taken out
of a new array, a member out of the object itself. -/
def delRec : Path → Heap → Val → Heap × Val × Bool
  | [], h, cur => (h, cur, false)
  | .index n :: rest, h, cur =>
    match h.elems cur with
    | none => (h, cur, false)
    | some (a, xs) =>
      if n < 0 then (h, cur, false)
      else
        match xs[n.toNat]? with
        | none => (h, cur, false)
        | some x =>
          if rest = [] then (h ++ [.arr (xs.eraseIdx n.toNat)], .arr h.length, true)
          else
            match delRec rest h x with
            | (h, _, false) => (h, cur, false)
            | (h, child, true) => (h.store a (.index n) child, cur, true)
  | .key k :: rest, h, cur =>
    match h.members cur with
    | none => (h, cur, false)
    | some (a, fs) =>
      match lookup k fs with
      | none => (h, cur, false)
      | some x =>
        if rest = [] then (h.delete a k, cur, true)
        else
          match delRec rest h x with
          | (h, _, false) => (h, cur, false)
          | (h, child, true) => (h.store a (.key k) child, cur, true)

def del (fuel : ℕ) (h : Heap) (doc : Val) (p : Path) : Option (Heap × Val × Bool) :=
  if p = [] then some (h ++ [.obj []], .obj h.length, true)
  else if doc = .null then some (h, .null, false)
  else
    (clone fuel h doc).map fun root =>
      match delRec p root.1 root.2 with
      | (h, _, false) => (h, doc, false)
      | (h, newRoot, true) => (h, newRoot, true)

end Operations

section Representation

inductive Points (h : Heap) : Val → ℕ → Cell → Prop
  | arr {a : ℕ} {xs : List Val} (ha : h[a]? = some (.arr xs)) : Points h (.arr a) a (.arr xs)
  | obj {a : ℕ} {fs : List (Text × Val)} (ha : h[a]? = some (.obj fs)) :
    Points h (.obj a) a (.obj fs)

def Cell.child : Cell → Seg → Option Val
  | .arr xs, .index n => elemAt xs n
  | .obj fs, .key k => lookup k fs
  | _, _ => none

/-- The cell has the shape of the document: an array of its length, or an object
with its keys, each once. -/
def Cell.Like : Cell → Json → Prop
  | .arr vs, .arr xs => vs.length = xs.length
  | .obj gs, .obj fs =>
    (gs.map Prod.fst).Nodup ∧ ∀ k, lookup k gs = none ↔ lookupField k fs = none
  | _, _ => False

inductive Leaf : Val → Json → Prop
  | null : Leaf .null .null
  | bool (b : Bool) : Leaf (.bool b) (.bool b)
  | num (lit : Bytes) : Leaf (.num lit) (.num lit)
  | str (s : Text) : Leaf (.str s) (.str s)

inductive Rep (h : Heap) (S : Set ℕ) : Val → Json → Prop
  | leaf {v : Val} {d : Json} (hleaf : Leaf v d) : Rep h S v d
  | node {v : Val} {a : ℕ} {c : Cell} {d : Json} (hpt : Points h v a c) (ha : a ∈ S)
      (hlike : c.Like d)
      (hchild : ∀ s w x, c.child s = some w → JsonX.child d s = some x → Rep h S w x) :
      Rep h S v d

/-- The value stands for the document. -/
def Holds (h : Heap) (v : Val) (d : Json) : Prop := Rep h Set.univ v d

/-- The value stands for the document, with every cell between `lo` and `hi` and
no cell on two paths: the parts of a cell lie in intervals of their own before it. -/
inductive Owned (h : Heap) : ℕ → ℕ → Val → Json → Prop
  | leaf {lo hi : ℕ} {v : Val} {d : Json} (hleaf : Leaf v d) : Owned h lo hi v d
  | node {lo hi : ℕ} {v : Val} {a : ℕ} {c : Cell} {d : Json} (start stop : Seg → ℕ)
      (hpt : Points h v a c) (hlo : lo ≤ a) (hhi : a < hi) (hlike : c.Like d)
      (hbounds : ∀ s w, c.child s = some w → lo ≤ start s ∧ stop s ≤ a)
      (hapart : ∀ s t w u, c.child s = some w → c.child t = some u → s ≠ t →
        stop s ≤ start t ∨ stop t ≤ start s)
      (hchild : ∀ s w x, c.child s = some w → JsonX.child d s = some x →
        Owned h (start s) (stop s) w x) : Owned h lo hi v d

def between (lo hi : ℕ) : Set ℕ := {a | lo ≤ a ∧ a < hi}

variable {h h' : Heap} {S S' : Set ℕ} {lo hi a : ℕ} {v : Val} {c : Cell} {d : Json}

theorem Points.cell (hpt : Points h v a c) : h[a]? = some c := by
  cases hpt with
  | arr ha => exact ha
  | obj ha => exact ha

theorem Points.lt (hpt : Points h v a c) : a < h.length :=
  (List.getElem?_eq_some_iff.mp hpt.cell).1

theorem Points.congr (hpt : Points h v a c) (hsame : h'[a]? = h[a]?) : Points h' v a c := by
  cases hpt with
  | arr ha => exact .arr (hsame.trans ha)
  | obj ha => exact .obj (hsame.trans ha)

theorem between_subset {lo' hi' : ℕ} (hlo : lo ≤ lo') (hhi : hi' ≤ hi) :
    between lo' hi' ⊆ between lo hi := fun _ hb => ⟨hlo.trans hb.1, hb.2.trans_le hhi⟩

/-- What a value stands for depends on the cells it uses only. -/
theorem Rep.transfer (hrep : Rep h S v d) (hsub : S ⊆ S') (hsame : ∀ a ∈ S, h'[a]? = h[a]?) :
    Rep h' S' v d := by
  induction hrep with
  | leaf hleaf => exact .leaf hleaf
  | node hpt ha hlike _ ih => exact .node (hpt.congr (hsame _ ha)) (hsub ha) hlike ih

theorem Rep.mono (hrep : Rep h S v d) (hsub : S ⊆ S') : Rep h S' v d :=
  hrep.transfer hsub fun _ _ => rfl

theorem Owned.transfer (hown : Owned h lo hi v d) (hsame : ∀ a ∈ between lo hi, h'[a]? = h[a]?) :
    Owned h' lo hi v d := by
  induction hown with
  | leaf hleaf => exact .leaf hleaf
  | node start stop hpt hlo hhi hlike hbounds hapart _ ih =>
    refine .node start stop (hpt.congr (hsame _ ⟨hlo, hhi⟩)) hlo hhi hlike hbounds hapart ?_
    intro s w x hw hx
    obtain ⟨hstart, hstop⟩ := hbounds s w hw
    exact ih s w x hw hx fun b hb => hsame b (between_subset hstart (hstop.trans hhi.le) hb)

theorem Owned.rep (hown : Owned h lo hi v d) : Rep h (between lo hi) v d := by
  induction hown with
  | leaf hleaf => exact .leaf hleaf
  | node start stop hpt hlo hhi hlike hbounds _ _ ih =>
    refine .node hpt ⟨hlo, hhi⟩ hlike fun s w x hw hx => ?_
    obtain ⟨hstart, hstop⟩ := hbounds s w hw
    exact (ih s w x hw hx).mono (between_subset hstart (hstop.trans hhi.le))

/-- A heap that only grew has the cells it had. -/
theorem getElem?_of_grown (hgrown : h <+: h') (ha : a < h.length) : h'[a]? = h[a]? := by
  obtain ⟨new, rfl⟩ := hgrown
  exact List.getElem?_append_left ha

theorem Rep.lt (hrep : Rep h S v d) : Rep h {a | a ∈ S ∧ a < h.length} v d := by
  induction hrep with
  | leaf hleaf => exact .leaf hleaf
  | node hpt ha hlike _ ih => exact .node hpt ⟨ha, hpt.lt⟩ hlike ih

theorem Rep.grown (hrep : Rep h S v d) (hgrown : h <+: h') : Rep h' S v d :=
  hrep.lt.transfer (fun _ ha => ha.1) fun _ ha => getElem?_of_grown hgrown ha.2

theorem Rep.holds (hrep : Rep h S v d) : Holds h v d := hrep.mono (Set.subset_univ S)

theorem Holds.lt (hv : Holds h v d) : Rep h {a | a < h.length} v d :=
  (Rep.lt hv).mono fun _ ha => ha.2

theorem Holds.eq_null (hv : Holds h .null d) : d = .null := by
  cases hv with
  | leaf hleaf => cases hleaf; rfl
  | node hpt => cases hpt

/-- Values for a list of documents, each laid out after the ones before it. -/
theorem exists_elems {α : Type} (doc : α → Json) (xs : List α)
    (hx : ∀ x ∈ xs, ∀ h : Heap, ∃ h' v, h <+: h' ∧ Holds h' v (doc x)) (h : Heap) :
    ∃ h' vs, h <+: h' ∧ List.Forall₂ (fun x v => Holds h' v (doc x)) xs vs := by
  induction xs generalizing h with
  | nil => exact ⟨h, [], List.prefix_rfl, .nil⟩
  | cons x rest ih =>
    obtain ⟨h₁, v, hgrown₁, hv⟩ := hx x List.mem_cons_self h
    obtain ⟨h', vs, hgrown, hvs⟩ := ih (fun y hy => hx y (List.mem_cons_of_mem x hy)) h₁
    exact ⟨h', v :: vs, hgrown₁.trans hgrown, .cons (hv.grown hgrown) hvs⟩

end Representation

section Cells

variable {h h' : Heap} {a : ℕ} {v w : Val} {c : Cell} {d : Json} {s : Seg}
  {gs : List (Text × Val)}

theorem lookup_eq_some_iff (hnodup : (gs.map Prod.fst).Nodup) {k : Text} :
    lookup k gs = some v ↔ (k, v) ∈ gs := by
  induction gs with
  | nil => simp [lookup]
  | cons g rest ih =>
    obtain ⟨hnot, hnodup⟩ := List.nodup_cons.mp hnodup
    by_cases hk : g.1 = k
    · have hnone : (k, v) ∉ rest := fun hmem => hnot (hk ▸ List.mem_map_of_mem hmem)
      simp only [lookup, List.find?_cons, hk, decide_true, Option.map_some, Option.some.injEq,
        List.mem_cons, hnone, or_false]
      exact ⟨fun hv => Prod.ext hk.symm hv.symm, fun hv => by rw [← hv]⟩
    · have hne : (k, v) ≠ g := fun hv => hk (by rw [← hv])
      have hrest : lookup k (g :: rest) = lookup k rest := by
        simp only [lookup, List.find?_cons, hk, decide_false]
      rw [hrest, ih hnodup, List.mem_cons]
      simp [hne]

theorem lookup_erase (k k' : Text) (gs : List (Text × Val)) :
    lookup k' (erase k gs) = if k' = k then none else lookup k' gs := by
  unfold lookup erase
  rw [List.find?_filter]
  by_cases hk : k' = k
  · subst hk
    simp
  · rw [if_neg hk]
    congr 2
    funext g
    by_cases hg : g.1 = k'
    · simp [hg, hk]
    · simp [hg]

theorem lookup_insert (k k' : Text) (v : Val) (gs : List (Text × Val)) :
    lookup k' (insert k v gs) = if k' = k then some v else lookup k' gs := by
  by_cases hk : k' = k
  · simp [insert, lookup, hk]
  · have hskip : lookup k' (insert k v gs) = lookup k' (erase k gs) := by
      have hk' : k ≠ k' := fun h => hk h.symm
      simp only [insert, lookup, List.find?_cons, hk', decide_false]
    rw [hskip, lookup_erase, if_neg hk, if_neg hk]

theorem nodup_erase (h : (gs.map Prod.fst).Nodup) (k : Text) : ((erase k gs).map Prod.fst).Nodup :=
  h.sublist (List.filter_sublist.map Prod.fst)

theorem nodup_insert (h : (gs.map Prod.fst).Nodup) (k : Text) (v : Val) :
    ((insert k v gs).map Prod.fst).Nodup := by
  refine List.nodup_cons.mpr ⟨fun hmem => ?_, nodup_erase h k⟩
  obtain ⟨g, hg, hgk⟩ := List.mem_map.mp hmem
  have hne := (List.mem_filter.mp hg).2
  simp [hgk] at hne

/-- A cell and its document are both arrays or both objects. -/
theorem Cell.Like.cases (hlike : c.Like d) :
    (∃ vs xs, c = .arr vs ∧ d = .arr xs ∧ vs.length = xs.length) ∨
      ∃ gs fs, c = .obj gs ∧ d = .obj fs ∧ (gs.map Prod.fst).Nodup ∧
        ∀ k, lookup k gs = none ↔ lookupField k fs = none := by
  cases c with
  | arr vs =>
    cases d with
    | arr xs => exact .inl ⟨vs, xs, rfl, rfl, hlike⟩
    | _ => exact hlike.elim
  | obj gs =>
    cases d with
    | obj fs => exact .inr ⟨gs, fs, rfl, rfl, hlike⟩
    | _ => exact hlike.elim

/-- A part of a cell is an element of an array or a member of an object. -/
theorem Cell.child_cases (hw : c.child s = some w) :
    (∃ vs n, c = .arr vs ∧ s = .index n ∧ 0 ≤ n ∧ vs[n.toNat]? = some w) ∨
      ∃ gs k, c = .obj gs ∧ s = .key k ∧ lookup k gs = some w := by
  cases c with
  | arr vs =>
    cases s with
    | index n => exact .inl ⟨vs, n, rfl, rfl, elemAt_eq_some_iff.mp hw⟩
    | key k => simp [Cell.child] at hw
  | obj gs =>
    cases s with
    | index n => simp [Cell.child] at hw
    | key k => exact .inr ⟨gs, k, rfl, rfl, hw⟩

theorem Cell.Like.child_eq_none_iff (hlike : c.Like d) (s : Seg) :
    c.child s = none ↔ JsonX.child d s = none := by
  rcases hlike.cases with ⟨vs, xs, rfl, rfl, hlen⟩ | ⟨gs, fs, rfl, rfl, -, hkeys⟩
  · cases s with
    | index n => simp only [Cell.child, JsonX.child, elemAt_eq_none_iff, hlen]
    | key k => simp [Cell.child, JsonX.child]
  · cases s with
    | index n => simp [Cell.child, JsonX.child]
    | key k => exact hkeys k

/-- The parts of a cell stand for those of the document. -/
theorem Cell.Like.exists_child (hlike : c.Like d) (hw : c.child s = some w) :
    ∃ x, JsonX.child d s = some x := by
  refine Option.ne_none_iff_exists'.mp fun hnone => ?_
  rw [(hlike.child_eq_none_iff s).mpr hnone] at hw
  simp at hw

theorem Cell.Like.exists_part (hlike : c.Like d) {x : Json} (hx : JsonX.child d s = some x) :
    ∃ w, c.child s = some w := by
  refine Option.ne_none_iff_exists'.mp fun hnone => ?_
  rw [(hlike.child_eq_none_iff s).mp hnone] at hx
  simp at hx

def Cell.Takes (c : Cell) (s : Seg) : Prop :=
  (∃ w, c.child s = some w) ∨ ∃ fs k, c = .obj fs ∧ s = .key k

theorem Cell.Takes.takes (htakes : c.Takes s) (hlike : c.Like d) : JsonX.Takes d s := by
  rcases htakes with ⟨w, hw⟩ | ⟨gs, k, rfl, rfl⟩
  · exact .inl (hlike.exists_child hw)
  · rcases hlike.cases with ⟨_, _, heq, -⟩ | ⟨_, fs, -, rfl, -⟩
    · cases heq
    · exact .inr trivial

theorem Cell.Takes.set_eq {xs : List Val} {n : ℤ} (h : (Cell.arr xs).Takes (.index n)) (v : Val) :
    xs.set n.toNat v = putElem xs n v ∧ 0 ≤ n ∧ n ≤ xs.length := by
  rcases h with ⟨w, hw⟩ | ⟨fs, k, heq, -⟩
  · obtain ⟨hn, hw⟩ := elemAt_eq_some_iff.mp hw
    have hlt : n.toNat < xs.length := (List.getElem?_eq_some_iff.mp hw).1
    exact ⟨(if_pos hlt).symm, hn, by omega⟩
  · simp at heq

theorem Cell.child_assign (htakes : c.Takes s) (v : Val) (t : Seg) :
    (c.assign s v).child t = if t = s then some v else c.child t := by
  cases c with
  | arr xs =>
    cases s with
    | index n =>
      obtain ⟨hset, hn⟩ := htakes.set_eq v
      cases t with
      | index m => simp only [Cell.assign, hset, Cell.child, elemAt_putElem hn, Seg.index.injEq]
      | key k => rfl
    | key k => rcases htakes with ⟨w, hw⟩ | ⟨fs, k, heq, -⟩ <;> simp_all [Cell.child]
  | obj fs =>
    cases s with
    | index n => rcases htakes with ⟨w, hw⟩ | ⟨fs, k, -, heq⟩ <;> simp_all [Cell.child]
    | key k =>
      cases t with
      | index m => rfl
      | key k' => simp only [Cell.assign, Cell.child, lookup_insert, Seg.key.injEq]

theorem Cell.Like.assign (hlike : c.Like d) (htakes : c.Takes s) (v : Val) (x : Json) :
    (c.assign s v).Like (replace d s x) := by
  rcases hlike.cases with ⟨vs, xs, rfl, rfl, hlen⟩ | ⟨gs, fs, rfl, rfl, hnodup, hkeys⟩
  · cases s with
    | index n =>
      obtain ⟨w, hw⟩ := hlike.exists_child (htakes.resolve_right (by simp)).choose_spec
      have hlt := (List.getElem?_eq_some_iff.mp (elemAt_eq_some_iff.mp hw).2).1
      simp [Cell.assign, replace, Cell.Like, putElem, hlt, hlen]
    | key k => exact hlike
  · cases s with
    | index n => exact hlike
    | key k =>
      refine ⟨nodup_insert hnodup k v, fun k' => ?_⟩
      rw [lookup_insert, lookupField_insertField]
      split
      · simp
      · exact hkeys k'

theorem getElem?_store_self (ha : h[a]? = some c) (s : Seg) (v : Val) :
    (h.store a s v)[a]? = some (c.assign s v) := by
  rw [Heap.store, List.getElem?_modify, ha]
  simp

theorem getElem?_store_of_ne (h : Heap) {a b : ℕ} (hne : b ≠ a) (s : Seg) (v : Val) :
    (h.store a s v)[b]? = h[b]? := by
  rw [Heap.store, List.getElem?_modify]
  simp [hne.symm]

theorem Points.store (hpt : Points h v a c) (hsame : h'[a]? = h[a]?) (s : Seg) (y : Val) :
    Points (h'.store a s y) v a (c.assign s y) := by
  have hcell := getElem?_store_self (hsame.trans hpt.cell) s y
  cases hpt with
  | arr ha => cases s <;> exact .arr hcell
  | obj ha => cases s <;> exact .obj hcell

/-- Assigning to a part of a cell replaces that part of the document. The other
parts must stand in cells other than this one. -/
theorem rep_store {S T : Set ℕ} {y : Val} {z : Json}
    (hpt : Points h v a c) (hcell : h'[a]? = h[a]?) (hlike : c.Like d) (htakes : c.Takes s)
    (hsub : T ⊆ S) (ha : a ∈ S) (haT : a ∉ T) (hnew : Rep h' T y z)
    (hold : ∀ t w x, t ≠ s → c.child t = some w → JsonX.child d t = some x → Rep h' T w x) :
    Rep (h'.store a s y) S v (replace d s z) := by
  have hkeep : ∀ {w : Val} {x : Json}, Rep h' T w x → Rep (h'.store a s y) S w x := by
    intro w x hrep
    refine hrep.transfer hsub fun b hb => getElem?_store_of_ne h' ?_ s y
    rintro rfl
    exact haT hb
  refine .node (hpt.store hcell s y) ha (hlike.assign htakes y z) fun t w x hw hx => ?_
  rw [Cell.child_assign htakes] at hw
  rw [child_replace (htakes.takes hlike)] at hx
  by_cases hts : t = s
  · rw [if_pos hts, Option.some.injEq] at hw hx
    rw [← hw, ← hx]
    exact hkeep hnew
  · rw [if_neg hts] at hw hx
    exact hkeep (hold t w x hts hw hx)

end Cells

section Layout

variable {h : Heap} {vs : List Val} {fs : List (Text × Json)}

theorem holds_arr {xs : List Json} (hall : List.Forall₂ (fun x v => Holds h v x) xs vs) :
    Holds (h ++ [.arr vs]) (.arr h.length) (.arr xs) := by
  refine .node (.arr List.getElem?_concat_length) (Set.mem_univ _) hall.length_eq.symm
    fun s w x hw hx => ?_
  rcases Cell.child_cases hw with ⟨_, n, heq, rfl, -, hw⟩ | ⟨_, _, heq, -⟩
  · cases heq
    obtain ⟨hxl, rfl⟩ := List.getElem?_eq_some_iff.mp (elemAt_eq_some_iff.mp hx).2
    obtain ⟨hwl, rfl⟩ := List.getElem?_eq_some_iff.mp hw
    have hrep : Holds h vs[n.toNat] xs[n.toNat] := hall.get hxl hwl
    exact hrep.grown (List.prefix_append _ _)
  · cases heq

theorem nodup_of_sorted (h : Sorted fs) : (fs.map Prod.fst).Nodup := by
  refine List.pairwise_map.mpr (h.imp fun {f g} hlt heq => ?_)
  have hself : compare g.1 g.1 = .eq := Std.ReflCmp.compare_self
  rw [heq, hself] at hlt
  contradiction

theorem lookup_zip (hall : List.Forall₂ (fun f v => Holds h v f.2) fs vs) (k : Text) :
    (lookup k ((fs.map Prod.fst).zip vs) = none ∧ lookupField k fs = none) ∨
      ∃ v x, lookup k ((fs.map Prod.fst).zip vs) = some v ∧ lookupField k fs = some x ∧
        Holds h v x := by
  induction hall with
  | nil => exact .inl ⟨rfl, rfl⟩
  | @cons f v fs vs hv _ ih =>
    by_cases hk : f.1 = k
    · exact .inr ⟨v, f.2, by simp [lookup, hk], by simp [lookupField, hk], hv⟩
    · have hk' : ¬ k = f.1 := fun heq => hk heq.symm
      simpa [lookup, lookupField, hk, hk'] using ih

theorem holds_obj (hsorted : Sorted fs) (hall : List.Forall₂ (fun f v => Holds h v f.2) fs vs) :
    Holds (h ++ [.obj ((fs.map Prod.fst).zip vs)]) (.obj h.length) (.obj fs) := by
  have hkeys : ((fs.map Prod.fst).zip vs).map Prod.fst = fs.map Prod.fst :=
    List.map_fst_zip (by simpa using hall.length_eq.le)
  refine .node (.obj List.getElem?_concat_length) (Set.mem_univ _) ⟨?_, fun k => ?_⟩
    fun s w x hw hx => ?_
  · rw [hkeys]
    exact nodup_of_sorted hsorted
  · rcases lookup_zip hall k with ⟨hv, hx⟩ | ⟨v, x, hv, hx, -⟩ <;> simp [hv, hx]
  · rcases Cell.child_cases hw with ⟨_, _, heq, -⟩ | ⟨_, k, heq, rfl, hw⟩
    · cases heq
    · cases heq
      rcases lookup_zip hall k with ⟨hv, -⟩ | ⟨v', x', hv, hx', hrep⟩
      · cases hv.symm.trans hw
      · obtain rfl := Option.some.inj (hv.symm.trans hw)
        obtain rfl := Option.some.inj (hx'.symm.trans hx)
        exact hrep.grown (List.prefix_append _ _)

/-- Every document can be laid out in memory, beside whatever is there. -/
theorem exists_holds {d : Json} (hd : InOrder d) (h : Heap) : ∃ h' v, h <+: h' ∧ Holds h' v d := by
  induction hd generalizing h with
  | null => exact ⟨h, .null, List.prefix_rfl, .leaf .null⟩
  | bool b => exact ⟨h, .bool b, List.prefix_rfl, .leaf (.bool b)⟩
  | num lit => exact ⟨h, .num lit, List.prefix_rfl, .leaf (.num lit)⟩
  | str s => exact ⟨h, .str s, List.prefix_rfl, .leaf (.str s)⟩
  | arr xs _ ih =>
    obtain ⟨h', vs, hgrown, hall⟩ := exists_elems id xs ih h
    exact ⟨_, _, hgrown.trans (List.prefix_append _ _), holds_arr hall⟩
  | obj fs hsorted _ ih =>
    obtain ⟨h', vs, hgrown, hall⟩ := exists_elems Prod.snd fs ih h
    exact ⟨_, _, hgrown.trans (List.prefix_append _ _), holds_obj hsorted hall⟩

end Layout

section Copying

variable {fuel : ℕ} {h : Heap} {a : ℕ} {v w : Val} {c : Cell} {d x : Json} {s : Seg}

theorem depth_child_lt (hx : JsonX.child d s = some x) : depth x < depth d := by
  cases d with
  | arr xs =>
    cases s with
    | index n =>
      have hmem : x ∈ xs := List.mem_of_getElem? (elemAt_eq_some_iff.mp hx).2
      rw [depth]
      exact Nat.lt_succ_of_le (depth_le_depthElems hmem)
    | key k => simp [JsonX.child] at hx
  | obj fs =>
    cases s with
    | index n => simp [JsonX.child] at hx
    | key k =>
      rw [depth]
      exact Nat.lt_succ_of_le (depth_le_depthMembers (lookupField_mem hx))
  | _ => cases s <;> simp [JsonX.child] at hx

/-- A pass over a list of which every step makes a value in cells of its own. -/
theorem thread_owned {α β : Type} (f : Heap → α → Option (Heap × β)) (R : α → β → Prop)
    (val : β → Val) (xs : List α) (ds : ℕ → Json) (h : Heap)
    (hf : ∀ i x h', xs[i]? = some x → h <+: h' → ∃ h'' y, f h' x = some (h'', y) ∧ h' <+: h'' ∧
      R x y ∧ Owned h'' h'.length h''.length (val y) (ds i)) :
    ∃ h' ys, ∃ bound : ℕ → ℕ, thread f h xs = some (h', ys) ∧ h <+: h' ∧ List.Forall₂ R xs ys ∧
      Monotone bound ∧ bound 0 = h.length ∧ (∀ i, bound i ≤ h'.length) ∧
      ∀ i y, ys[i]? = some y → Owned h' (bound i) (bound (i + 1)) (val y) (ds i) := by
  induction xs generalizing ds h with
  | nil =>
    exact ⟨h, [], fun _ => h.length, rfl, List.prefix_rfl, .nil, fun _ _ _ => le_rfl, rfl,
      fun _ => le_rfl, by simp⟩
  | cons x rest ih =>
    obtain ⟨h₁, y, hfx, hgrown₁, hR, hown⟩ := hf 0 x h rfl List.prefix_rfl
    obtain ⟨h', ys, bound, hthread, hgrown, hRs, hmono, hzero, hle, howns⟩ :=
      ih (fun i => ds (i + 1)) h₁ fun i x' h' hx' hh' =>
        hf (i + 1) x' h' hx' (hgrown₁.trans hh')
    have hstart : h.length ≤ h₁.length := hgrown₁.length_le
    refine ⟨h', y :: ys, fun i => if i = 0 then h.length else bound (i - 1), ?_,
      hgrown₁.trans hgrown, .cons hR hRs, ?_, rfl, ?_, ?_⟩
    · simp only [thread, hfx, Option.bind_some, hthread, Option.map_some]
    · refine monotone_nat_of_le_succ fun i => ?_
      by_cases hi : i = 0
      · simp [hi, hzero, hstart]
      · simp only [hi, if_false, Nat.add_eq_zero_iff, false_and]
        exact hmono (by omega)
    · intro i
      by_cases hi : i = 0
      · simp only [hi, if_true]
        exact hstart.trans hgrown.length_le
      · simp only [hi, if_false]
        exact hle _
    · intro i y' hy'
      cases i with
      | zero =>
        rw [List.getElem?_cons_zero, Option.some.injEq] at hy'
        subst hy'
        simp only [if_true, Nat.zero_add, Nat.one_ne_zero, if_false, Nat.sub_self, hzero]
        exact hown.transfer fun a ha => getElem?_of_grown hgrown ha.2
      | succ i =>
        simp only [Nat.add_eq_zero_iff, Nat.one_ne_zero, and_false, if_false,
          Nat.add_sub_cancel]
        exact howns i y' hy'

variable {gs : List (Text × Val)}

theorem exists_index_of_lookup {k : Text} (hw : lookup k gs = some w) :
    gs[gs.findIdx (·.1 = k)]? = some (k, w) := by
  obtain ⟨g, hg, rfl⟩ := Option.map_eq_some_iff.mp hw
  have hk : g.1 = k := by simpa using List.find?_some hg
  rw [← List.find?_eq_getElem?_findIdx, hg, ← hk]

def Cell.place : Cell → Seg → ℕ
  | .arr _, .index n => n.toNat
  | .obj fs, .key k => fs.findIdx (·.1 = k)
  | _, _ => 0

theorem Cell.place_inj {t : Seg} {u : Val} (hw : c.child s = some w) (hu : c.child t = some u)
    (hst : c.place s = c.place t) : s = t := by
  rcases Cell.child_cases hw with ⟨vs, n, rfl, rfl, hn, -⟩ | ⟨gs, k, rfl, rfl, hk⟩
  · rcases Cell.child_cases hu with ⟨_, m, -, rfl, hm, -⟩ | ⟨_, _, heq, -⟩
    · have heq : n.toNat = m.toNat := hst
      have hnm : n = m := by omega
      rw [hnm]
    · cases heq
  · rcases Cell.child_cases hu with ⟨_, _, heq, -⟩ | ⟨_, k', heq, rfl, hk'⟩
    · cases heq
    · cases heq
      have hat := exists_index_of_lookup hk
      rw [show gs.findIdx (·.1 = k) = gs.findIdx (·.1 = k') from hst,
        exists_index_of_lookup hk', Option.some.injEq, Prod.mk.injEq] at hat
      rw [hat.1]

/-- A cell whose parts lie one after the other before it. -/
theorem owned_of_parts {lo hi : ℕ} {bound : ℕ → ℕ} (hpt : Points h v a c) (hhi : a < hi)
    (hlike : c.Like d) (hmono : Monotone bound) (hzero : bound 0 = lo) (hle : ∀ i, bound i ≤ a)
    (hchild : ∀ s w x, c.child s = some w → JsonX.child d s = some x →
      Owned h (bound (c.place s)) (bound (c.place s + 1)) w x) : Owned h lo hi v d := by
  refine .node (fun s => bound (c.place s)) (fun s => bound (c.place s + 1)) hpt (hzero ▸ hle 0)
    hhi hlike (fun s w _ => ⟨hzero ▸ hmono (Nat.zero_le _), hle _⟩) (fun s t w u hw hu hst => ?_)
    hchild
  have hne : c.place s ≠ c.place t := fun heq => hst (Cell.place_inj hw hu heq)
  rcases Nat.lt_or_gt_of_ne hne with hlt | hgt
  · exact .inl (hmono hlt)
  · exact .inr (hmono hgt)

/-- A copy of a value in cells of its own, after those that were there. -/
def Copies (fuel : ℕ) (h : Heap) (v : Val) (d : Json) : Prop :=
  ∃ h' v', clone fuel h v = some (h', v') ∧ h <+: h' ∧ Owned h' h.length h'.length v' d

/-- Copying an array, given copies of its elements. -/
theorem copies_arr {vs : List Val} {xs : List Json}
    (hcell : h[a]? = some (.arr vs)) (hlike : (Cell.arr vs).Like (.arr xs))
    (hpart : ∀ s w x h', (Cell.arr vs).child s = some w → JsonX.child (.arr xs) s = some x →
      h <+: h' → Copies fuel h' w x) : Copies (fuel + 1) h (.arr a) (.arr xs) := by
  have hstep : ∀ (i : ℕ) (w : Val) (h' : Heap), vs[i]? = some w → h <+: h' →
      ∃ h'' w', clone fuel h' w = some (h'', w') ∧ h' <+: h'' ∧ True ∧
        Owned h'' h'.length h''.length w' ((xs[i]?).getD .null) := by
    intro i w h' hw hgrown
    have hchild : (Cell.arr vs).child (.index i) = some w :=
      elemAt_eq_some_iff.mpr ⟨Int.natCast_nonneg i, hw⟩
    obtain ⟨x, hx⟩ := hlike.exists_child hchild
    have hxi : xs[i]? = some x := (elemAt_eq_some_iff.mp hx).2
    obtain ⟨h'', w', hclone, hgrown', hown⟩ := hpart _ w x h' hchild hx hgrown
    rw [hxi]
    exact ⟨h'', w', hclone, hgrown', trivial, hown⟩
  obtain ⟨h', ys, bound, hthread, hgrown, hall, hmono, hzero, hle, howns⟩ :=
    thread_owned (clone fuel) (fun _ _ => True) id vs (fun i => (xs[i]?).getD .null) h hstep
  have hlen : ys.length = vs.length := hall.length_eq.symm
  refine ⟨h' ++ [.arr ys], .arr h'.length, ?_, hgrown.trans (List.prefix_append _ _), ?_⟩
  · simp only [clone, hcell, hthread, Option.map_some]
  · refine owned_of_parts (.arr List.getElem?_concat_length) (by simp) (hlen.trans hlike) hmono
      hzero hle fun s w x hw hx => ?_
    rcases Cell.child_cases hw with ⟨_, n, heq, rfl, -, hw⟩ | ⟨_, _, heq, -⟩
    · cases heq
      have hown := howns n.toNat w hw
      rw [(elemAt_eq_some_iff.mp hx).2] at hown
      exact hown.transfer fun b hb => List.getElem?_append_left (hb.2.trans_le (hle _))
    · cases heq

theorem lookup_of_same_keys {ys : List (Text × Val)} (hkeys : ys.map Prod.fst = gs.map Prod.fst)
    (k : Text) : lookup k ys = none ↔ lookup k gs = none := by
  have hnone : ∀ l : List (Text × Val), lookup k l = none ↔ k ∉ l.map Prod.fst := by
    intro l
    simp only [lookup, Option.map_eq_none_iff, List.find?_eq_none, decide_eq_true_eq,
      List.mem_map, not_exists, not_and]
  rw [hnone, hnone, hkeys]

/-- Copying an object, given copies of its members. -/
theorem copies_obj {fs : List (Text × Json)} (hcell : h[a]? = some (.obj gs))
    (hlike : (Cell.obj gs).Like (.obj fs))
    (hpart : ∀ s w x h', (Cell.obj gs).child s = some w → JsonX.child (.obj fs) s = some x →
      h <+: h' → Copies fuel h' w x) : Copies (fuel + 1) h (.obj a) (.obj fs) := by
  have hstep : ∀ (i : ℕ) (g : Text × Val) (h' : Heap), gs[i]? = some g → h <+: h' →
      ∃ h'' g', ((clone fuel h' g.2).map fun r => (r.1, (g.1, r.2))) = some (h'', g') ∧
        h' <+: h'' ∧ g.1 = g'.1 ∧ Owned h'' h'.length h''.length g'.2
          ((gs[i]?.bind fun g => lookupField g.1 fs).getD .null) := by
    intro i g h' hg hgrown
    have hchild : (Cell.obj gs).child (.key g.1) = some g.2 :=
      (lookup_eq_some_iff hlike.1).mpr (List.mem_of_getElem? hg)
    obtain ⟨x, hx⟩ := hlike.exists_child hchild
    have hxi : (gs[i]?.bind fun g => lookupField g.1 fs) = some x := by
      rw [hg]
      exact hx
    obtain ⟨h'', w', hclone, hgrown', hown⟩ := hpart _ g.2 x h' hchild hx hgrown
    rw [hxi, hclone]
    exact ⟨h'', (g.1, w'), rfl, hgrown', rfl, hown⟩
  obtain ⟨h', ys, bound, hthread, hgrown, hall, hmono, hzero, hle, howns⟩ :=
    thread_owned (fun h f => (clone fuel h f.2).map fun r => (r.1, (f.1, r.2)))
      (fun g g' => g.1 = g'.1) Prod.snd gs
      (fun i => (gs[i]?.bind fun g => lookupField g.1 fs).getD .null) h hstep
  have hkeys : ys.map Prod.fst = gs.map Prod.fst := by
    refine List.forall₂_eq_eq_eq ▸ (List.forall₂_map_left_iff.mpr
      (List.forall₂_map_right_iff.mpr ?_))
    exact hall.flip.imp fun _ _ heq => heq.symm
  have hlike' : (Cell.obj ys).Like (.obj fs) :=
    ⟨hkeys ▸ hlike.1, fun k => (lookup_of_same_keys hkeys k).trans (hlike.2 k)⟩
  refine ⟨h' ++ [.obj ys], .obj h'.length, ?_, hgrown.trans (List.prefix_append _ _), ?_⟩
  · simp only [clone, hcell, hthread, Option.map_some]
  · refine owned_of_parts (.obj List.getElem?_concat_length) (by simp) hlike' hmono hzero hle
      fun s w x hw hx => ?_
    rcases Cell.child_cases hw with ⟨_, _, heq, -⟩ | ⟨_, k, heq, rfl, hw⟩
    · cases heq
    · cases heq
      have hy := exists_index_of_lookup hw
      have hkey : (gs.map Prod.fst)[ys.findIdx (·.1 = k)]? = some k := by
        rw [← hkeys, List.getElem?_map, hy]
        rfl
      rw [List.getElem?_map] at hkey
      obtain ⟨g, hg, hgk⟩ := Option.map_eq_some_iff.mp hkey
      have hown := howns _ _ hy
      rw [hg, Option.bind_some, hgk, show lookupField k fs = some x from hx] at hown
      exact hown.transfer fun b hb => List.getElem?_append_left (hb.2.trans_le (hle _))

/-- With enough fuel every document is copied. -/
theorem copies_of_rep {S : Set ℕ} (hrep : Rep h S v d) (hfuel : depth d < fuel) :
    Copies fuel h v d := by
  induction fuel generalizing h v d with
  | zero => simp at hfuel
  | succ fuel ih =>
    cases hrep with
    | leaf hleaf =>
      refine ⟨h, v, ?_, List.prefix_rfl, .leaf hleaf⟩
      cases hleaf <;> rfl
    | @node _ a c _ hpt ha hlike hchild =>
      -- each part is copied into a heap that has grown since
      have hpart : ∀ s w x h', c.child s = some w → JsonX.child d s = some x → h <+: h' →
          Copies fuel h' w x := by
        intro s w x h' hw hx hgrown
        have := depth_child_lt hx
        exact ih ((hchild s w x hw hx).grown hgrown) (by omega)
      rcases hlike.cases with ⟨vs, xs, rfl, rfl, -⟩ | ⟨gs, fs, rfl, rfl, -⟩
      · cases hpt with
        | arr hcell => exact copies_arr hcell hlike hpart
      · cases hpt with
        | obj hcell => exact copies_obj hcell hlike hpart

end Copying

section Writing

/-- A heap whose old cells are as they were, but for those from `lo` up to `hi`. -/
structure Within (lo hi : ℕ) (h h' : Heap) : Prop where
  length_le : h.length ≤ h'.length
  same : ∀ a, a < h.length → a < lo ∨ hi ≤ a → h'[a]? = h[a]?

inductive Agrees (h : Heap) (S : Set ℕ) : Except Err Val → Except Err Json → Prop
  | ok {v : Val} {d : Json} (hrep : Rep h S v d) : Agrees h S (.ok v) (.ok d)
  | error (e : Err) : Agrees h S (.error e) (.error e)

def reach (base lo hi : ℕ) (h : Heap) : Set ℕ := {a | a < base ∨ a ∈ between lo hi ∨ h.length ≤ a}

variable {h h' h'' : Heap} {base lo hi lo' hi' a : ℕ} {val cur v : Val} {c : Cell} {d : Json}
  {s : Seg} {r : Heap × Except Err Val} {e : Except Err Json}

theorem Within.refl (lo hi : ℕ) (h : Heap) : Within lo hi h h := ⟨le_rfl, fun _ _ _ => rfl⟩

theorem Within.of_grown (lo hi : ℕ) (hgrown : h <+: h') : Within lo hi h h' :=
  ⟨hgrown.length_le, fun _ ha _ => getElem?_of_grown hgrown ha⟩

theorem Within.grow (hw : Within lo hi h h') (hgrown : h' <+: h'') : Within lo hi h h'' :=
  ⟨hw.length_le.trans hgrown.length_le, fun a ha hout =>
    (getElem?_of_grown hgrown (ha.trans_le hw.length_le)).trans (hw.same a ha hout)⟩

theorem Within.widen (hw : Within lo' hi' h h') (hlo : lo ≤ lo') (hhi : hi' ≤ hi) :
    Within lo hi h h' :=
  ⟨hw.length_le, fun a ha hout => hw.same a ha (by omega)⟩

theorem Within.store (hw : Within lo hi h h') (hlo : lo ≤ a) (hhi : a < hi) (s : Seg) (v : Val) :
    Within lo hi h (h'.store a s v) := by
  refine ⟨by simpa [Heap.store] using hw.length_le, fun b hb hout => ?_⟩
  rw [getElem?_store_of_ne h' (by omega) s v]
  exact hw.same b hb hout

variable {w : Json} {S S' : Set ℕ} {vs : List Val}

theorem Agrees.mono {out : Except Err Val} (hagree : Agrees h S out e) (hsub : S ⊆ S') :
    Agrees h S' out e := by
  cases hagree with
  | ok hrep => exact .ok (hrep.mono hsub)
  | error e => exact .error e

theorem agrees_andThen {f : Heap → Val → Heap × Val} {g : Json → Json} (hlo : lo ≤ lo')
    (hhi : hi' ≤ hi) (hr : Within lo' hi' h r.1 ∧ Agrees r.1 S r.2 e) (hf : ∀ v d, Rep r.1 S v d →
      Within lo hi h (f r.1 v).1 ∧ Rep (f r.1 v).1 S' (f r.1 v).2 (g d)) :
    Within lo hi h (andThen r f).1 ∧ Agrees (andThen r f).1 S' (andThen r f).2 (e.map g) := by
  obtain ⟨h', out⟩ := r
  obtain ⟨hw, hagree⟩ := hr
  cases hagree with
  | ok hrep =>
    obtain ⟨hw', hrep'⟩ := hf _ _ hrep
    exact ⟨hw', .ok hrep'⟩
  | error e => exact ⟨hw.widen hlo hhi, .error e⟩

/-- Creating a path in memory and in the document. -/
theorem createPath_agrees (hval : Rep h {a | a < base} val w) (p : Path) :
    Within lo lo h (createPath val p h).1 ∧
      Agrees (createPath val p h).1 (reach base lo lo h) (createPath val p h).2
        (JsonX.createPath p w) := by
  induction p with
  | nil => exact ⟨.refl lo lo h, .ok (hval.mono fun _ ha => .inl ha)⟩
  | cons s rest ih =>
    cases s with
    | index n => exact ⟨.refl lo lo h, .error .type⟩
    | key k =>
      refine agrees_andThen le_rfl le_rfl ih fun v d hrep => ?_
      generalize (createPath val rest h).1 = h' at ih hrep ⊢
      have hgrown : h' <+: h' ++ [Cell.obj [(k, v)]] := List.prefix_append _ _
      have hlookup : ∀ k', lookup k' [(k, v)] = if k' = k then some v else none := fun k' =>
        lookup_insert k k' v []
      refine ⟨ih.1.grow hgrown, .node (.obj List.getElem?_concat_length)
        (.inr (.inr ih.1.length_le)) ⟨?_, fun k' => ?_⟩ ?_⟩
      · exact List.nodup_singleton k
      · rw [hlookup]
        simp only [lookupField]
        split <;> simp
      · intro s w x hw hx
        rcases Cell.child_cases hw with ⟨_, _, heq, -⟩ | ⟨_, k', heq, rfl, hv⟩
        · cases heq
        · cases heq
          rw [hlookup] at hv
          simp only [JsonX.child, lookupField] at hx
          by_cases hk : k' = k
          · rw [if_pos hk] at hv
            subst hk
            rw [if_pos rfl, Option.some.injEq] at hx
            rw [Option.some.injEq] at hv
            rw [← hv, ← hx]
            exact hrep.grown hgrown
          · simp [hk] at hv

/-- In memory, a step to a part that is there. -/
theorem setRec_of_part {x : Val} (hpt : Points h cur a c) (hx : c.child s = some x) (rest : Path) :
    setRec val (s :: rest) h cur =
      andThen (setRec val rest h x) fun h child => (h.store a s child, cur) := by
  rcases Cell.child_cases hx with ⟨vs, n, rfl, rfl, hn, hget⟩ | ⟨gs, k, rfl, rfl, hget⟩
  · cases hpt with
    | arr hcell => simp only [setRec, Heap.elems, hcell, not_lt.mpr hn, if_false, hget]
  · cases hpt with
    | obj hcell => simp only [setRec, Heap.members, hcell, hget]

/-- In memory, a step that can neither be taken nor added. -/
theorem setRec_refused (hown : Owned h lo hi cur d) (hrefused : ¬ Takes d s) (rest : Path) :
    setRec val (s :: rest) h cur = (h, .error (refusal d s)) := by
  cases hown with
  | leaf hleaf => cases hleaf <;> cases s <;> rfl
  | node _ _ hpt _ _ hlike =>
    rcases hlike.cases with ⟨vs, xs, rfl, rfl, hlen⟩ | ⟨gs, fs, rfl, rfl, -⟩
    · cases hpt with
      | arr hcell =>
        cases s with
        | key k => rfl
        | index n =>
          obtain ⟨hchild, hroom⟩ := not_or.mp hrefused
          simp only [setRec, Heap.elems, hcell, refusal]
          by_cases hn : n < 0
          · rw [if_pos hn]
          · have hnone : JsonX.child (.arr xs) (.index n) = none :=
              Option.eq_none_iff_forall_ne_some.mpr fun x hx => hchild ⟨x, hx⟩
            have hle := (elemAt_eq_none_iff.mp hnone).resolve_left hn
            have hget : vs[n.toNat]? = none := List.getElem?_eq_none (by omega)
            have hne : n ≠ vs.length := fun heq => hroom (heq.trans (by rw [hlen]))
            simp only [hn, if_false, hget, hne]
    · cases hpt with
      | obj hcell =>
        cases s with
        | key k => exact (hrefused (.inr trivial)).elim
        | index n => rfl

theorem setRec_newKey {gs : List (Text × Val)} {k : Text} (hpt : Points h cur a (.obj gs))
    (hk : lookup k gs = none) (rest : Path) : setRec val (.key k :: rest) h cur =
      andThen (createPath val rest h) fun h child => (h.store a (.key k) child, cur) := by
  cases hpt with
  | obj hcell => simp only [setRec, Heap.members, hcell, hk]

theorem setRec_append (hpt : Points h cur a (.arr vs)) (rest : Path) :
    setRec val (.index vs.length :: rest) h cur = andThen (createPath val rest h) fun h child =>
        (h ++ [.arr (vs ++ [child])], .arr h.length) := by
  have hn : ¬ (vs.length : ℤ) < 0 := by omega
  cases hpt with
  | arr hcell =>
    simp only [setRec, Heap.elems, hcell, hn, if_false, Int.toNat_natCast, List.getElem?_length,
      if_true]

theorem Leaf.not_takes (h : Leaf v d) (s : Seg) : ¬ Takes d s := by
  cases h <;> cases s <;> simp [Takes, JsonX.child, Room]

/-- A part made in the interval from `lo'` up to `hi'`, or in new cells, is assigned to
a cell of the copy whose other parts lie elsewhere. -/
theorem rep_store_part {z : Json} (hpt : Points h cur a c) (hlike : c.Like d) (htakes : c.Takes s)
    (hbase : base ≤ lo) (hlo : lo ≤ a) (hhi : a < hi) (hlo' : lo ≤ lo') (hhi' : hi' ≤ a)
    (hold : ∀ t w x, t ≠ s → c.child t = some w → JsonX.child d t = some x →
      ∃ l u, lo ≤ l ∧ u ≤ a ∧ (u ≤ lo' ∨ hi' ≤ l) ∧ Owned h l u w x)
    (hw : Within lo' hi' h h') (hrep : Rep h' (reach base lo' hi' h) v z) :
    Within lo hi h (h'.store a s v) ∧
      Rep (h'.store a s v) (reach base lo hi h) cur (replace d s z) := by
  have hlt : a < h.length := hpt.lt
  refine ⟨(hw.widen hlo' (hhi'.trans hhi.le)).store hlo hhi s v, ?_⟩
  have hcell : h'[a]? = h[a]? := hw.same a hlt (.inr hhi')
  have ha : a ∈ reach base lo hi h := .inr (.inl ⟨hlo, hhi⟩)
  refine rep_store (T := reach base lo hi h \ {a}) hpt hcell hlike htakes Set.sdiff_subset ha
    (fun hmem => hmem.2 rfl) ?_ fun t w x hts hw' hx => ?_
  · refine hrep.mono fun b hb => ?_
    rcases hb with hb | ⟨hb₁, hb₂⟩ | hb
    · exact ⟨.inl hb, fun heq => by rw [heq] at hb; omega⟩
    · exact ⟨.inr (.inl ⟨by omega, by omega⟩), fun heq => by rw [heq] at hb₂; omega⟩
    · exact ⟨.inr (.inr hb), fun heq => by rw [heq] at hb; omega⟩
  · obtain ⟨l, u, hl, hu, hout, hown⟩ := hold t w x hts hw' hx
    refine hown.rep.transfer (fun b hb => ?_) fun b hb => ?_
    · obtain ⟨hb₁, hb₂⟩ := hb
      exact ⟨.inr (.inl ⟨by omega, by omega⟩), fun heq => by rw [heq] at hb₂; omega⟩
    · obtain ⟨hb₁, hb₂⟩ := hb
      exact hw.same b (by omega) (by omega)

theorem store_agrees (hpt : Points h cur a c) (hlike : c.Like d) (htakes : c.Takes s)
    (hbase : base ≤ lo) (hlo : lo ≤ a) (hhi : a < hi) (hlo' : lo ≤ lo') (hhi' : hi' ≤ a)
    (hr : Within lo' hi' h r.1 ∧ Agrees r.1 (reach base lo' hi' h) r.2 e)
    (hold : ∀ t w x, t ≠ s → c.child t = some w → JsonX.child d t = some x →
      ∃ l u, lo ≤ l ∧ u ≤ a ∧ (u ≤ lo' ∨ hi' ≤ l) ∧ Owned h l u w x) :
    Within lo hi h (andThen r fun h child => (h.store a s child, cur)).1 ∧
      Agrees (andThen r fun h child => (h.store a s child, cur)).1 (reach base lo hi h)
        (andThen r fun h child => (h.store a s child, cur)).2 (e.map (replace d s)) :=
  agrees_andThen hlo' (hhi'.trans hhi.le) hr fun _ _ hrep =>
    rep_store_part hpt hlike htakes hbase hlo hhi hlo' hhi' hold hr.1 hrep

theorem putElem_length {α : Type} (xs : List α) (x : α) : putElem xs xs.length x = xs ++ [x] := by
  simp [putElem]

/-- A part made in new cells is appended to a new array. -/
theorem append_agrees {xs : List Json} (hlike : (Cell.arr vs).Like (.arr xs))
    (hparts : ∀ t w x, (Cell.arr vs).child t = some w → JsonX.child (.arr xs) t = some x →
      Rep h (between lo hi) w x) (hle : lo ≤ hi) (hhi : hi ≤ h.length)
    (hr : Within lo lo h r.1 ∧ Agrees r.1 (reach base lo lo h) r.2 e) :
    Within lo hi h (andThen r fun h child => (h ++ [.arr (vs ++ [child])], .arr h.length)).1 ∧
      Agrees (andThen r fun h child => (h ++ [.arr (vs ++ [child])], .arr h.length)).1
        (reach base lo hi h)
        (andThen r fun h child => (h ++ [.arr (vs ++ [child])], .arr h.length)).2
        (e.map (replace (.arr xs) (.index xs.length))) := by
  have hlen : vs.length = xs.length := hlike
  refine agrees_andThen le_rfl hle hr fun v z hrep => ?_
  have hw := hr.1
  have hgrown : r.1 <+: r.1 ++ [.arr (vs ++ [v])] := List.prefix_append _ _
  have hshape : (Cell.arr (vs ++ [v])).Like (replace (.arr xs) (.index xs.length) z) := by
    simp [Cell.Like, replace, putElem_length, hlen]
  refine ⟨(hw.grow hgrown).widen le_rfl hle, .node (.arr List.getElem?_concat_length)
    (.inr (.inr hw.length_le)) hshape ?_⟩
  intro t w x hwt hx
  cases t with
  | key k => simp [Cell.child] at hwt
  | index m =>
    rw [Cell.child, ← putElem_length, elemAt_putElem ⟨by omega, le_rfl⟩] at hwt
    have htakes : Takes (.arr xs) (.index xs.length) := .inr rfl
    rw [child_replace htakes] at hx
    by_cases hm : m = xs.length
    · rw [if_pos (by rw [hm, hlen]), Option.some.injEq] at hwt
      rw [if_pos (by rw [hm]), Option.some.injEq] at hx
      rw [← hwt, ← hx]
      refine (hrep.grown hgrown).mono fun b hb => ?_
      rcases hb with hb | ⟨hb₁, hb₂⟩ | hb
      · exact .inl hb
      · omega
      · exact .inr (.inr hb)
    · rw [if_neg (by rw [hlen]; exact hm)] at hwt
      rw [if_neg (by simpa using hm)] at hx
      refine (hparts (.index m) w x hwt hx).transfer (fun b hb => .inr (.inl hb)) fun b hb => ?_
      have hb : b < h.length := hb.2.trans_le hhi
      rw [getElem?_of_grown hgrown (hb.trans_le hw.length_le)]
      exact hw.same b hb (by omega)

/-- A write to the copy has the outcome of the write to the document and touches
no cell but those of the copy. -/
theorem setRec_agrees (p : Path) (hown : Owned h lo hi cur d) (hbase : base ≤ lo)
    (hhi : hi ≤ h.length) (hval : Rep h {a | a < base} val w) :
    Within lo hi h (setRec val p h cur).1 ∧
      Agrees (setRec val p h cur).1 (reach base lo hi h) (setRec val p h cur).2
        (JsonX.setRec p d w) := by
  induction p generalizing h lo hi cur d with
  | nil => exact ⟨.refl lo hi h, .ok (hval.mono fun _ ha => .inl ha)⟩
  | cons s rest ih =>
    by_cases htakes : Takes d s
    · cases hown with
      | leaf hleaf => exact (hleaf.not_takes s htakes).elim
      | @node _ _ _ a c _ start stop hpt hlo' hhi' hlike hbounds hapart hchild =>
        cases hx : JsonX.child d s with
        | some x =>
          obtain ⟨y, hy⟩ := hlike.exists_part hx
          obtain ⟨hstart, hstop⟩ := hbounds s y hy
          rw [setRec_of_part hpt hy, setRec_of_child hx]
          refine store_agrees hpt hlike (.inl ⟨y, hy⟩) hbase hlo' hhi' hstart hstop
            (ih (hchild s y x hy hx) (hbase.trans hstart) (by have := hpt.lt; omega) hval) ?_
          intro t u z hts hu hz
          obtain ⟨hstart', hstop'⟩ := hbounds t u hu
          exact ⟨start t, stop t, hstart', hstop', hapart t s u y hu hy hts, hchild t u z hu hz⟩
        | none =>
          have hroom : Room d s := htakes.resolve_left (by simp [hx])
          have hnone : c.child s = none := (hlike.child_eq_none_iff s).mpr hx
          rw [setRec_of_room hx hroom]
          rcases hlike.cases with ⟨vs, xs, rfl, rfl, hlen⟩ | ⟨gs, fs, rfl, rfl, -⟩
          · cases s with
            | key k => exact hroom.elim
            | index n =>
              obtain rfl : n = xs.length := hroom
              rw [← hlen, setRec_append hpt, hlen]
              refine append_agrees hlike (fun t u z hu hz => ?_) (by omega) hhi
                (createPath_agrees hval rest)
              obtain ⟨hstart, hstop⟩ := hbounds t u hu
              exact (hchild t u z hu hz).rep.mono (between_subset hstart (hstop.trans hhi'.le))
          · cases s with
            | index n => exact hroom.elim
            | key k =>
              rw [setRec_newKey hpt hnone]
              refine store_agrees hpt hlike (.inr ⟨gs, k, rfl, rfl⟩) hbase hlo' hhi' hlo' le_rfl
                (createPath_agrees hval rest) fun t u z _ hu hz => ?_
              obtain ⟨hstart, hstop⟩ := hbounds t u hu
              exact ⟨start t, stop t, hstart, hstop, .inl hstop, hchild t u z hu hz⟩
    · rw [setRec_refused hown htakes, setRec_of_refused htakes]
      exact ⟨.refl lo hi h, .error _⟩

/-- A heap that differs from one that grew only in what is new has grown. -/
theorem grown_of_within (hgrown : h <+: h') (hw : Within h.length hi h' h'') : h <+: h'' := by
  refine List.prefix_iff_getElem?.mpr fun a ha => ?_
  rw [hw.same a (ha.trans_le hgrown.length_le) (.inl ha), getElem?_of_grown hgrown ha]
  exact List.getElem?_eq_getElem ha

/-- A write in memory leaves every cell as it was, the document among them, and has
the outcome of the write to the document. -/
theorem set_agrees {fuel : ℕ} {doc : Val} (hdoc : Holds h doc d) (hval : Holds h val w)
    (hfuel : depth d < fuel) (p : Path) :
    ∃ h' out, set fuel h doc p val = some (h', out) ∧ h <+: h' ∧
      Agrees h' Set.univ out (JsonX.set d p w) := by
  by_cases hp : p = []
  · subst hp
    exact ⟨h, _, if_pos rfl, List.prefix_rfl, .ok hval⟩
  · by_cases hnull : doc = .null
    · subst hnull
      obtain rfl := hdoc.eq_null
      refine ⟨h, .error .type, ?_, List.prefix_rfl, ?_⟩
      · rw [set, if_neg hp, if_pos rfl]
      · rw [JsonX.set, if_neg hp]
        exact .error .type
    · obtain ⟨h₁, root, hclone, hgrown, hown⟩ := copies_of_rep hdoc hfuel
      have hval₁ : Rep h₁ {a | a < h.length} val w := hval.lt.grown hgrown
      obtain ⟨hw, hagree⟩ := setRec_agrees p hown le_rfl le_rfl hval₁
      refine ⟨(setRec val p h₁ root).1, (setRec val p h₁ root).2, ?_,
        grown_of_within hgrown hw, ?_⟩
      · rw [set, if_neg hp, if_neg hnull, hclone]
        rfl
      · rw [set_eq_setRec]
        exact hagree.mono (Set.subset_univ _)

end Writing

section Deleting

inductive Deletes (lo hi : ℕ) (h : Heap) (cur : Val) : Heap × Val × Bool → Option Json → Prop
  | kept : Deletes lo hi h cur (h, cur, false) none
  | removed {h' : Heap} {v : Val} {d : Json} (hw : Within lo hi h h')
      (hrep : Rep h' (reach 0 lo hi h) v d) : Deletes lo hi h cur (h', v, true) (some d)

variable {h : Heap} {lo hi a : ℕ} {cur x y : Val} {c : Cell} {d : Json} {s : Seg} {vs : List Val}
  {gs : List (Text × Val)} {n : ℤ} {k : Text}

/-- A missing child leaves the heap alone. -/
theorem delRec_missing (hown : Owned h lo hi cur d) (hnone : JsonX.child d s = none)
    (rest : Path) : delRec (s :: rest) h cur = (h, cur, false) := by
  cases hown with
  | leaf hleaf => cases hleaf <;> cases s <;> rfl
  | node _ _ hpt _ _ hlike =>
    have hnone := (hlike.child_eq_none_iff s).mpr hnone
    cases hpt with
    | @arr a vs hcell =>
      cases s with
      | key k => rfl
      | index n =>
        simp only [delRec, Heap.elems, hcell]
        by_cases hn : n < 0
        · rw [if_pos hn]
        · have hle := (elemAt_eq_none_iff.mp hnone).resolve_left hn
          have hget : vs[n.toNat]? = none := List.getElem?_eq_none (by omega)
          simp only [hn, if_false, hget]
    | @obj a gs hcell =>
      cases s with
      | index n => rfl
      | key k =>
        have hnone : lookup k gs = none := hnone
        simp only [delRec, Heap.members, hcell, hnone]

/-- In memory, the deletion below a part that is there. -/
theorem delRec_of_part {rest : Path} (hrest : rest ≠ []) (hpt : Points h cur a c)
    (hx : c.child s = some x) : delRec (s :: rest) h cur = if (delRec rest h x).2.2 then
        ((delRec rest h x).1.store a s (delRec rest h x).2.1, cur, true)
      else ((delRec rest h x).1, cur, false) := by
  rcases hr : delRec rest h x with ⟨h', child, ok⟩
  rcases Cell.child_cases hx with ⟨vs, n, rfl, rfl, hn, hget⟩ | ⟨gs, k, rfl, rfl, hget⟩
  · cases hpt with
    | arr hcell =>
      simp only [delRec, Heap.elems, hcell, not_lt.mpr hn, if_false, hget, hr]
      cases ok <;> simp [hrest]
  · cases hpt with
    | obj hcell =>
      simp only [delRec, Heap.members, hcell, hget, hr]
      cases ok <;> simp [hrest]

/-- An element is left out of a new array. -/
theorem deletes_index {xs : List Json} (hlike : (Cell.arr vs).Like (.arr xs)) (hn : 0 ≤ n)
    (hparts : ∀ t w x, (Cell.arr vs).child t = some w → JsonX.child (.arr xs) t = some x →
      Rep h (between lo hi) w x) :
    Deletes lo hi h cur (h ++ [.arr (vs.eraseIdx n.toNat)], .arr h.length, true)
      (some (remove (.arr xs) (.index n))) := by
  have hlen : vs.length = xs.length := hlike
  have hgrown : h <+: h ++ [.arr (vs.eraseIdx n.toNat)] := List.prefix_append _ _
  have hshape : (Cell.arr (vs.eraseIdx n.toNat)).Like (remove (.arr xs) (.index n)) := by
    simp only [Cell.Like, remove, List.length_eraseIdx, hlen]
  refine .removed (.of_grown lo hi hgrown)
    (.node (.arr List.getElem?_concat_length) (.inr (.inr le_rfl)) hshape ?_)
  intro t w x hw hx
  cases t with
  | key k => simp [Cell.child] at hw
  | index m =>
    rw [Cell.child, elemAt_eraseIdx vs hn] at hw
    rw [remove, JsonX.child, elemAt_eraseIdx xs hn] at hx
    have hpart := hparts (.index (if m < n then m else m + 1)) w x hw hx
    exact (hpart.mono fun b hb => .inr (.inl hb)).grown hgrown

/-- A member is taken out of the object itself. -/
theorem deletes_key {fs : List (Text × Json)} (hpt : Points h cur a (.obj gs)) (hlo : lo ≤ a)
    (hhi : a < hi) (hlike : (Cell.obj gs).Like (.obj fs))
    (hparts : ∀ t w x, (Cell.obj gs).child t = some w → JsonX.child (.obj fs) t = some x →
      Rep h (between lo a) w x) :
    Deletes lo hi h cur (h.delete a k, cur, true) (some (remove (.obj fs) (.key k))) := by
  have hcell : (h.delete a k)[a]? = some (.obj (erase k gs)) := by
    rw [Heap.delete, List.getElem?_modify, hpt.cell]
    simp
  have hother : ∀ b, b ≠ a → (h.delete a k)[b]? = h[b]? := by
    intro b hb
    rw [Heap.delete, List.getElem?_modify]
    simp [hb.symm]
  have hpt' : Points (h.delete a k) cur a (.obj (erase k gs)) := by
    cases hpt with
    | obj => exact .obj hcell
  have hw : Within lo hi h (h.delete a k) := by
    refine ⟨by simp [Heap.delete], fun b _ hout => hother b ?_⟩
    omega
  have hshape : (Cell.obj (erase k gs)).Like (remove (.obj fs) (.key k)) := by
    refine ⟨nodup_erase hlike.1 k, fun k' => ?_⟩
    rw [lookup_erase, lookupField_eraseField]
    split
    · simp
    · exact hlike.2 k'
  refine .removed hw (.node hpt' (.inr (.inl ⟨hlo, hhi⟩)) hshape fun t w x hwt hx => ?_)
  rw [child_remove_key] at hx
  by_cases htk : t = Seg.key k
  · simp [htk] at hx
  · rw [if_neg htk] at hx
    have hwt' : (Cell.obj gs).child t = some w := by
      cases t with
      | index m => simp [Cell.child] at hwt
      | key k' =>
        rw [Cell.child, lookup_erase, if_neg fun heq => htk (by rw [heq])] at hwt
        exact hwt
    refine (hparts t w x hwt' hx).transfer (fun b hb => .inr (.inl ⟨hb.1, ?_⟩)) fun b hb => ?_
    · exact hb.2.trans hhi
    · exact hother b hb.2.ne

theorem delRec_last_index (hpt : Points h cur a (.arr vs)) (hn : 0 ≤ n)
    (hy : vs[n.toNat]? = some y) :
    delRec [.index n] h cur = (h ++ [.arr (vs.eraseIdx n.toNat)], .arr h.length, true) := by
  cases hpt with
  | arr hcell => simp only [delRec, Heap.elems, hcell, not_lt.mpr hn, if_false, hy, if_true]

theorem delRec_last_key (hpt : Points h cur a (.obj gs)) (hy : lookup k gs = some y) :
    delRec [.key k] h cur = (h.delete a k, cur, true) := by
  cases hpt with
  | obj hcell => simp only [delRec, Heap.members, hcell, hy, if_true]

/-- A deletion in the copy removes the node from the document, or changes nothing. -/
theorem deletes_delRec (p : Path) (hown : Owned h lo hi cur d) :
    Deletes lo hi h cur (delRec p h cur) (JsonX.delRec p d) := by
  induction p generalizing h lo hi cur d with
  | nil => exact .kept
  | cons s rest ih =>
    cases hx : JsonX.child d s with
    | none =>
      have hpure : JsonX.delRec (s :: rest) d = none := by
        by_cases hrest : rest = []
        · rw [hrest, delRec_last, hx]
          rfl
        · rw [delRec_cons hrest, hx]
          rfl
      rw [delRec_missing hown hx, hpure]
      exact .kept
    | some x =>
      cases hown with
      | leaf hleaf => exact (hleaf.not_takes s (.inl ⟨x, hx⟩)).elim
      | @node _ _ _ a c _ start stop hpt hlo' hhi' hlike hbounds hapart hchild =>
        obtain ⟨y, hy⟩ := hlike.exists_part hx
        obtain ⟨hstart, hstop⟩ := hbounds s y hy
        have hparts : ∀ t w x, c.child t = some w → JsonX.child d t = some x →
            Rep h (between lo a) w x := by
          intro t w x hw hx
          obtain ⟨hstart', hstop'⟩ := hbounds t w hw
          exact (hchild t w x hw hx).rep.mono (between_subset hstart' hstop')
        by_cases hrest : rest = []
        · rw [hrest, delRec_last, hx, Option.map_some]
          rcases hlike.cases with ⟨vs, xs, rfl, rfl, -⟩ | ⟨gs, fs, rfl, rfl, -⟩
          · rcases Cell.child_cases hy with ⟨_, n, heq, rfl, hn, hget⟩ | ⟨_, _, heq, -⟩
            · cases heq
              rw [delRec_last_index hpt hn hget]
              exact deletes_index hlike hn fun t w x hw hx =>
                (hparts t w x hw hx).mono (between_subset le_rfl hhi'.le)
            · cases heq
          · rcases Cell.child_cases hy with ⟨_, _, heq, -⟩ | ⟨_, k, heq, rfl, hget⟩
            · cases heq
            · cases heq
              rw [delRec_last_key hpt hget]
              exact deletes_key hpt hlo' hhi' hlike hparts
        · rw [delRec_of_part hrest hpt hy, delRec_cons hrest, hx, Option.bind_some]
          have hdel := ih (hchild s y x hy hx)
          generalize delRec rest h y = r at hdel ⊢
          generalize JsonX.delRec rest x = e at hdel ⊢
          cases hdel with
          | kept => exact .kept
          | removed hw hrep =>
            obtain ⟨hw', hrep'⟩ := rep_store_part hpt hlike (.inl ⟨y, hy⟩) (Nat.zero_le lo) hlo'
              hhi' hstart hstop (fun t u z hts hu hz => ⟨start t, stop t, (hbounds t u hu).1,
                (hbounds t u hu).2, hapart t s u y hu hy hts, hchild t u z hu hz⟩) hw hrep
            exact .removed hw' hrep'

/-- A deletion in memory leaves every cell as it was. It hands back what the deletion
makes of the document, or the value it was given. -/
theorem del_agrees {fuel : ℕ} {doc : Val} (hdoc : Holds h doc d) (hfuel : depth d < fuel)
    (p : Path) : ∃ h' out, del fuel h doc p = some (h', out, (delReturn d p).2) ∧ h <+: h' ∧
      Holds h' out (delReturn d p).1 ∧ ((delReturn d p).2 = false → out = doc) := by
  by_cases hp : p = []
  · subst hp
    have hempty : Holds (h ++ [.obj []]) (.obj h.length) (.obj []) := holds_obj .nil .nil
    exact ⟨_, _, rfl, List.prefix_append _ _, hempty, nofun⟩
  · by_cases hnull : doc = .null
    · subst hnull
      obtain rfl := hdoc.eq_null
      have hdel : JsonX.del .null p = none := if_neg hp
      rw [del, if_neg hp, if_pos rfl, delReturn, hdel]
      exact ⟨h, .null, rfl, List.prefix_rfl, hdoc, fun _ => rfl⟩
    · obtain ⟨h₁, root, hclone, hgrown, hown⟩ := copies_of_rep hdoc hfuel
      have hdel := deletes_delRec p hown
      rw [del, if_neg hp, if_neg hnull, hclone, Option.map_some, delReturn, del_eq_delRec d hp]
      generalize delRec p h₁ root = r at hdel ⊢
      generalize JsonX.delRec p d = e at hdel ⊢
      cases hdel with
      | kept => exact ⟨h₁, doc, rfl, hgrown, hdoc.grown hgrown, fun _ => rfl⟩
      | removed hw hrep => exact ⟨_, _, rfl, grown_of_within hgrown hw, hrep.holds, nofun⟩

end Deleting

section Laws

/-- Writing at a path. -/
theorem json_set_laws (d : Json) (p : Path) (v : Json) :
    ((∃ r, JsonX.set d p v = .ok r) ↔ Writable d p) ∧
      (∀ r, JsonX.set d p v = .ok r →
        get r p = some v ∧ ∀ q, ¬ q <+: p → ¬ p <+: q → get r q = get d q) ∧
      (∀ w, (JsonX.set d p v).bind (JsonX.set · p w) = JsonX.set d p w) ∧
      (∀ x, InOrder d → get d p = some x → JsonX.set d p x = .ok d) ∧
      ∀ fuel h doc val, Holds h doc d → Holds h val v → depth d < fuel →
        ∃ h' out, set fuel h doc p val = some (h', out) ∧ h <+: h' ∧ Holds h' doc d ∧
          Agrees h' Set.univ out (JsonX.set d p v) := by
  simp only [set_eq_setRec]
  refine ⟨setRec_ok_iff p d v, fun r hr => ⟨get_setRec hr, fun q hqp hpq => ?_⟩,
    fun w => setRec_setRec p d v w, fun x hd hx => setRec_get hd hx, ?_⟩
  · exact get_setRec_apart hr ⟨hpq, hqp⟩
  · intro fuel h doc val hdoc hval hfuel
    obtain ⟨h', out, hset, hgrown, hagree⟩ := set_agrees hdoc hval hfuel p
    rw [set_eq_setRec] at hagree
    exact ⟨h', out, hset, hgrown, hdoc.grown hgrown, hagree⟩

/-- Deleting at a path. -/
theorem json_del_laws (d : Json) (q : Path) (s : Seg) :
    ((delReturn d (q ++ [s])).2 = true ↔ ∃ x, get d (q ++ [s]) = some x) ∧
      ((delReturn d (q ++ [s])).2 = false → (delReturn d (q ++ [s])).1 = d) ∧
      ((delReturn d (q ++ [s])).2 = true →
        (∀ k, s = .key k →
          get (delReturn d (q ++ [s])).1 (q ++ [s]) = none ∧
            ∀ path, ¬ path <+: q ++ [s] → ¬ q ++ [s] <+: path →
              get (delReturn d (q ++ [s])).1 path = get d path) ∧
        ∀ i, s = .index i →
          (∃ xs ys, get d q = some (.arr xs) ∧ get (delReturn d (q ++ [s])).1 q = some (.arr ys) ∧
            ys.length + 1 = xs.length) ∧
          (∀ j tail, j < i → get (delReturn d (q ++ [s])).1 (q ++ .index j :: tail) =
            get d (q ++ .index j :: tail)) ∧
          (∀ j tail, i ≤ j → get (delReturn d (q ++ [s])).1 (q ++ .index j :: tail) =
            get d (q ++ .index (j + 1) :: tail)) ∧
          ∀ path, ¬ path <+: q → ¬ q <+: path →
            get (delReturn d (q ++ [s])).1 path = get d path) ∧
      ∀ fuel h doc, Holds h doc d → depth d < fuel →
        ∃ h' out, del fuel h doc (q ++ [s]) = some (h', out, (delReturn d (q ++ [s])).2) ∧
          h <+: h' ∧ Holds h' doc d ∧ Holds h' out (delReturn d (q ++ [s])).1 ∧
          ((delReturn d (q ++ [s])).2 = false → out = doc) := by
  have hne : q ++ [s] ≠ [] := by simp
  have hsome := isSome_delRec hne d
  refine ⟨?_, ?_, ?_, ?_⟩
  · rw [delReturn, del_eq_delRec d hne, hsome, Option.isSome_iff_exists]
  · intro hfalse
    rw [delReturn, del_eq_delRec d hne, Option.isSome_eq_false_iff,
      Option.isNone_iff_eq_none] at hfalse
    rw [delReturn, del_eq_delRec d hne, hfalse]
    rfl
  · intro htrue
    rw [delReturn, del_eq_delRec d hne] at htrue ⊢
    obtain ⟨r, hr⟩ := Option.isSome_iff_exists.mp htrue
    rw [hr]
    constructor
    · rintro k rfl
      obtain ⟨hgone, hframe⟩ := get_delRec_key hr
      exact ⟨hgone, fun path h₁ h₂ => hframe path ⟨h₂, h₁⟩⟩
    · rintro i rfl
      obtain ⟨hlen, hbefore, hafter, hframe⟩ := get_delRec_index hr
      exact ⟨hlen, hbefore, hafter, fun path h₁ h₂ => hframe path ⟨h₂, h₁⟩⟩
  · intro fuel h doc hdoc hfuel
    obtain ⟨h', out, hdel, hgrown, hout, hsame⟩ := del_agrees hdoc hfuel (q ++ [s])
    exact ⟨h', out, hdel, hgrown, hdoc.grown hgrown, hout, hsame⟩

end Laws

end Supercache.JsonHeap

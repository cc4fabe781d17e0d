import Supercache.ScoredCollections
import Supercache.StrictSort

/-!
The entries of a map in the order that a sort leaves them in. A map hands out its entries in
any order, and a sort may do anything with entries that compare alike; names are compared
last and no two entries have the same name, so there is only one outcome.
-/
namespace Supercache

open Wire ByteMap FloatBits StrictSort

section ByName

variable {V : Type}

def nameLess (a b : Bytes × V) : Bool := compare a.1 b.1 == .lt

theorem nameLess_iff (a b : Bytes × V) :
    nameLess a b = true ↔ () < () ∨ () = () ∧ compare a.1 b.1 = .lt := by
  simp [nameLess]

theorem sorts_toList (m : Map V) : Sorts nameLess m.toList m.toList where
  perm := List.Perm.refl _
  ordered := by
    refine m.ordered_keys_toList.imp fun hlt => ?_
    have hgt := Std.OrientedCmp.gt_of_lt hlt
    simp [nameLess, hgt]

theorem eq_toList_of_sorts {m : Map V} {es : List (Bytes × V)} (h : Sorts nameLess m.toList es) :
    es = m.toList := by
  have hless : ∀ a b : Bytes × V, True → True → _ := fun a b _ _ => nameLess_iff a b
  have hcmp := comparable_of_lex hless (fun _ _ => trivial) (keys_nodup m)
  have horders := orders_of_lex hless
  rw [h.eq_sort horders (fun _ _ => trivial) hcmp,
    ← (sorts_toList m).eq_sort horders (fun _ _ => trivial) hcmp]

end ByName

namespace ZSet

/-- No score is NaN. -/
def Ordered (z : Scores) : Prop := ∀ e ∈ z.toList, isNaN e.2 = false

variable {z : Scores}

theorem less_iff {a b : Bytes × UInt64} (ha : isNaN a.2 = false) (hb : isNaN b.2 = false) :
    less a b = true ↔
      ordKey a.2 < ordKey b.2 ∨ ordKey a.2 = ordKey b.2 ∧ compare a.1 b.1 = .lt := by
  unfold less eqBits ltBits
  rw [ha, hb]
  by_cases heq : ordKey a.2 = ordKey b.2 <;> simp [heq]

theorem orders_less : Orders less fun e : Bytes × UInt64 => isNaN e.2 = false :=
  orders_of_lex fun _ _ => less_iff

theorem Ordered.comparable (h : Ordered z) : Comparable less z.toList :=
  comparable_of_lex (fun _ _ => less_iff) h (keys_nodup z)

theorem Ordered.sorts (h : Ordered z) : Sorts less z.toList (ordered z) :=
  sorts_sort orders_less h h.comparable

theorem Ordered.eq_ordered (h : Ordered z) {es : List (Bytes × UInt64)}
    (hes : Sorts less z.toList es) : es = ordered z :=
  hes.eq_sort orders_less h h.comparable

theorem Ordered.pairwise (h : Ordered z) : (ordered z).Pairwise fun a b => less a b = true :=
  pairwise_sort orders_less h h.comparable

end ZSet

end Supercache

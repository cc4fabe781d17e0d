import Mathlib

/-!
Paging through a sorted list. A page holds the first elements after a cursor, and
the last of them is the cursor of the next page. Between two pages the list may
change, as long as whatever is new comes after everything that was there; then no
element that stays is left out and none comes twice.
-/
namespace Supercache.Cursor

variable {β κ : Type} [LinearOrder κ] (key : β → κ)

def Ascending (xs : List β) : Prop := xs.Pairwise fun x y => key x < key y

def after (cursor : WithBot κ) (xs : List β) : List β :=
  xs.filter fun x => cursor < (key x : WithBot κ)

def page (size : ℕ) (cursor : WithBot κ) (xs : List β) : List β := (after key cursor xs).take size

/-- What is new in the second list comes after the whole of the first. -/
def Extends (xs ys : List β) : Prop := ∀ y ∈ ys, y ∈ xs ∨ ∀ x ∈ xs, key x < key y

inductive Paged (size : ℕ) : WithBot κ → List (List β) → List (List β) → Prop
  | done {cursor : WithBot κ} {xs : List β} (h : page key size cursor xs = []) :
    Paged size cursor [xs] []
  | more {cursor : WithBot κ} {xs : List β} {views pages : List (List β)} {last : β}
    (hlast : (page key size cursor xs).getLast? = some last)
    (h : Paged size (key last) views pages) :
    Paged size cursor (xs :: views) (page key size cursor xs :: pages)

section Page

variable {key} {size : ℕ} {cursor : WithBot κ} {xs : List β}

theorem mem_after {x : β} : x ∈ after key cursor xs ↔ x ∈ xs ∧ cursor < (key x : WithBot κ) := by
  rw [after, List.mem_filter, decide_eq_true_eq]

theorem mem_of_mem_page {x : β} (h : x ∈ page key size cursor xs) :
    x ∈ xs ∧ cursor < (key x : WithBot κ) :=
  mem_after.mp (List.mem_of_mem_take h)

theorem Ascending.after (h : Ascending key xs) : Ascending key (after key cursor xs) :=
  List.Pairwise.filter _ h

theorem Ascending.page (h : Ascending key xs) : Ascending key (page key size cursor xs) :=
  h.after.sublist (List.take_sublist _ _)

theorem after_of_page_eq_nil (hsize : 1 ≤ size) (h : page key size cursor xs = []) :
    after key cursor xs = [] := by
  rcases List.take_eq_nil_iff.mp h with hzero | hnil
  · omega
  · exact hnil

/-- The last element of a page is the greatest. -/
theorem Ascending.le_getLast {ys : List β} (h : Ascending key ys) {last : β}
    (hlast : ys.getLast? = some last) {x : β} (hx : x ∈ ys) : key x ≤ key last := by
  obtain ⟨init, rfl⟩ := List.getLast?_eq_some_iff.mp hlast
  rcases List.mem_append.mp hx with hinit | hsame
  · exact ((List.pairwise_append.mp h).2.2 x hinit last List.mem_cons_self).le
  · rw [List.mem_singleton.mp hsame]

/-- A page leaves nothing out before its last element. -/
theorem Ascending.mem_page (h : Ascending key xs) {last x : β}
    (hlast : (Cursor.page key size cursor xs).getLast? = some last) (hx : x ∈ xs)
    (hafter : cursor < (key x : WithBot κ)) (hle : key x ≤ key last) :
    x ∈ Cursor.page key size cursor xs := by
  have hmem : x ∈ Cursor.after key cursor xs := mem_after.mpr ⟨hx, hafter⟩
  have hsplit := List.take_append_drop size (Cursor.after key cursor xs)
  rw [← hsplit] at hmem
  rcases List.mem_append.mp hmem with htake | hdrop
  · exact htake
  · have hsorted : Ascending key (Cursor.after key cursor xs) := h.after
    rw [Ascending, ← hsplit] at hsorted
    have hlt := (List.pairwise_append.mp hsorted).2.2 last (List.mem_of_getLast? hlast) x hdrop
    exact absurd hle (not_le.mpr hlt)

end Page

section Pages

variable {key} {size : ℕ} {cursor : WithBot κ} {views pages : List (List β)}

section

variable (h : Paged key size cursor views pages)
include h

theorem Paged.ne_nil : views ≠ [] := by
  cases h <;> exact List.cons_ne_nil _ _

theorem Paged.after_cursor (hviews : ∀ xs ∈ views, Ascending key xs) :
    ∀ x ∈ pages.flatten, cursor < (key x : WithBot κ) := by
  induction h with
  | done => simp
  | more hlast _ ih =>
    intro x hx
    obtain ⟨-, hviews⟩ := List.forall_mem_cons.mp hviews
    rcases List.mem_append.mp hx with hpage | hlater
    · exact (mem_of_mem_page hpage).2
    · exact (mem_of_mem_page (List.mem_of_getLast? hlast)).2.trans (ih hviews x hlater)

/-- No element comes twice, and they come in order. -/
theorem Paged.ascending
    (hviews : ∀ xs ∈ views, Ascending key xs) : Ascending key pages.flatten := by
  induction h with
  | done => exact List.Pairwise.nil
  | more hlast hrest ih =>
    obtain ⟨hxs, hviews⟩ := List.forall_mem_cons.mp hviews
    refine List.pairwise_append.mpr ⟨hxs.page, ih hviews, fun x hx y hy => ?_⟩
    have hlater := WithBot.coe_lt_coe.mp (hrest.after_cursor hviews y hy)
    exact lt_of_le_of_lt (hxs.page.le_getLast hlast hx) hlater

end

/-- Every element of the list the pass ends with was on a page. -/
theorem Paged.complete (hsize : 1 ≤ size) (h : Paged key size cursor views pages)
    (hviews : ∀ xs ∈ views, Ascending key xs) (hext : views.Pairwise (Extends key)) {final : List β}
    (hfinal : views.getLast? = some final) {x : β} (hx : x ∈ final)
    (hafter : cursor < (key x : WithBot κ)) : x ∈ pages.flatten := by
  induction h with
  | done hnil =>
    rw [List.getLast?_singleton, Option.some.injEq] at hfinal
    rw [← hfinal] at hx
    have hmem := mem_after.mpr ⟨hx, hafter⟩
    rw [after_of_page_eq_nil hsize hnil] at hmem
    exact hmem
  | @more _ xs views pages last hlast hrest ih =>
    obtain ⟨hxs, hviews⟩ := List.forall_mem_cons.mp hviews
    obtain ⟨hfirst, hext⟩ := List.pairwise_cons.mp hext
    rw [List.getLast?_cons_of_ne_nil hrest.ne_nil] at hfinal
    rw [List.flatten_cons, List.mem_append]
    by_cases hle : key x ≤ key last
    · -- so old an element was already there when this page was taken
      have hold : x ∈ xs := by
        rcases hfirst final (List.mem_of_getLast? hfinal) x hx with hold | hnew
        · exact hold
        · have hlastmem := (mem_of_mem_page (List.mem_of_getLast? hlast)).1
          exact absurd hle (not_le.mpr (hnew last hlastmem))
      exact .inl (hxs.mem_page hlast hold hafter hle)
    · exact .inr (ih hviews hext hfinal (WithBot.coe_lt_coe.mpr (not_le.mp hle)))

/-- No page but the one that ends the pass is empty. -/
theorem Paged.length_le (h : Paged key size cursor views pages) :
    pages.length ≤ pages.flatten.length := by
  induction h with
  | done => exact le_rfl
  | more hlast _ ih =>
    have hpos := List.length_pos_of_mem (List.mem_of_getLast? hlast)
    rw [List.length_cons, List.flatten_cons, List.length_append]
    omega

theorem Paged.mem_views (h : Paged key size cursor views pages) {x : β} (hx : x ∈ pages.flatten) :
    ∃ xs ∈ views, x ∈ xs := by
  induction h with
  | done => simp at hx
  | more _ _ ih =>
    rcases List.mem_append.mp hx with hpage | hlater
    · exact ⟨_, List.mem_cons_self, (mem_of_mem_page hpage).1⟩
    · obtain ⟨xs, hxs, hmem⟩ := ih hlater
      exact ⟨xs, List.mem_cons_of_mem _ hxs, hmem⟩

/-- Two ascending lists with the same elements are the same. -/
theorem Ascending.ext {xs ys : List β} (hxs : Ascending key xs) (hys : Ascending key ys)
    (h : ∀ x, x ∈ xs ↔ x ∈ ys) : xs = ys := by
  have hirrefl : Std.Irrefl fun x y : β => key x < key y := ⟨fun x => lt_irrefl (key x)⟩
  have hasymm : Std.Antisymm fun x y : β => key x < key y :=
    ⟨fun x y hxy hyx => absurd hyx hxy.asymm⟩
  exact List.Pairwise.eq_of_mem_iff hxs hys h

/-- Each page leaves fewer elements to come. -/
theorem length_after_lt {all : List β} {x : β} (hx : x ∈ all)
    (hafter : cursor < (key x : WithBot κ)) :
    (after key (key x) all).length < (after key cursor all).length := by
  have hsub : (after key (key x) all).Sublist (after key cursor all) := by
    refine List.monotone_filter_right all fun y hy => ?_
    rw [decide_eq_true_eq] at hy ⊢
    exact hafter.trans hy
  refine lt_of_le_of_ne hsub.length_le fun hlen => ?_
  have hmem : x ∈ after key cursor all := mem_after.mpr ⟨hx, hafter⟩
  rw [← hsub.eq_of_length hlen] at hmem
  exact lt_irrefl _ (mem_after.mp hmem).2

end Pages

end Supercache.Cursor

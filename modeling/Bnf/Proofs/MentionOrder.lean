import Mathlib.Data.List.Induction
import Mathlib.Data.List.Nodup
import Mathlib.Data.List.Perm.Subperm
import Mathlib.Logic.Function.Iterate

/-!
# The order of first mention

Items that mention one another are listed, each with the items that it mentions behind it. Read from
left to right, the list gives a new order: that in which the items occur first. The new order need
not be the old one, and listing the items once more may give a third order. But with each step at
least one more item comes to a place that it keeps.

## Main definitions

- `mentionOrder` — items in the order of their first mention

## Main results

- `mentionOrder_eq_self` — an order in which whatever a settled item mentions is settled
- `mentionOrder_iterate_eq` — as many steps as there are items settle any order
-/

namespace Bnf

variable {α : Type} [DecidableEq α] {refs : α → List α} {xs pre rest : List α} {x y : α}

theorem nodup_eraseDups (xs : List α) : xs.eraseDups.Nodup := by
  induction xs using List.reverseRecOn with
  | nil => exact List.nodup_nil
  | append_singleton xs x ih =>
    rw [List.eraseDups_append]
    by_cases hx : x ∈ xs
    · simpa [List.removeAll, hx] using ih
    · have hfirst : ∀ y ∈ xs, y ≠ x := fun y hy hsame => hx (hsame ▸ hy)
      simpa [List.removeAll, hx, List.eraseDups_cons, List.nodup_append, ih] using hfirst

/-- **Items in the order of their first mention**, if each is listed in front of those that it
    mentions. -/
def mentionOrder (refs : α → List α) (xs : List α) : List α :=
  (xs.flatMap fun x => x :: refs x).eraseDups

theorem mem_mentionOrder : y ∈ mentionOrder refs xs ↔ ∃ x ∈ xs, y = x ∨ y ∈ refs x := by
  simp [mentionOrder, List.mem_flatMap]

theorem nodup_mentionOrder (refs : α → List α) (xs : List α) : (mentionOrder refs xs).Nodup :=
  nodup_eraseDups _

/-- What the first items mention comes first. -/
theorem mentionOrder_append (refs : α → List α) (pre rest : List α) :
    ∃ more, mentionOrder refs (pre ++ rest) = mentionOrder refs pre ++ more := by
  rw [mentionOrder, List.flatMap_append, List.eraseDups_append]
  exact ⟨_, rfl⟩

/-- An item that the items before it do not mention comes right behind what they mention. -/
theorem mentionOrder_append_cons (hx : x ∉ mentionOrder refs pre) (rest : List α) :
    ∃ more, mentionOrder refs (pre ++ x :: rest) = mentionOrder refs pre ++ x :: more := by
  rw [mentionOrder, List.mem_eraseDups] at hx
  refine ⟨((refs x ++ rest.flatMap fun x => x :: refs x).removeAll
    (pre.flatMap fun x => x :: refs x) |>.filter fun y => !y == x).eraseDups, ?_⟩
  rw [mentionOrder, List.flatMap_append, List.eraseDups_append, List.flatMap_cons, List.cons_append,
    List.removeAll, List.filter_cons_of_pos (by simpa using hx), List.eraseDups_cons]
  rfl

/-- **What comes to a place**: the item that has this place already, if the items before it mention
    nothing but themselves, or else an item that they mention. -/
theorem getElem?_mentionOrder (refs : α → List α) {k : Nat} (h : xs.Nodup) (hk : xs[k]? = some x) :
    ((mentionOrder refs xs)[k]? = some x ∧ (mentionOrder refs (xs.take k)).length = k) ∨
      ∃ y ∈ mentionOrder refs (xs.take k), (mentionOrder refs xs)[k]? = some y ∧
        k < (mentionOrder refs (xs.take k)).length := by
  obtain ⟨hlt, rfl⟩ := List.getElem?_eq_some_iff.1 hk
  have hsplit : xs.take k ++ xs[k] :: xs.drop (k + 1) = xs := by simp
  have hlength : (xs.take k).length = k := List.length_take_of_le (Nat.le_of_lt hlt)
  have htake : (xs.take k).Nodup := h.sublist (List.take_sublist k xs)
  have hsubset : xs.take k ⊆ mentionOrder refs (xs.take k) := fun z hz =>
    mem_mentionOrder.2 ⟨z, hz, .inl rfl⟩
  obtain hmore | hsame := Nat.lt_or_eq_of_le (htake.subperm hsubset).length_le
  · rw [hlength] at hmore
    obtain ⟨more, hall⟩ := mentionOrder_append refs (xs.take k) (xs[k] :: xs.drop (k + 1))
    rw [hsplit] at hall
    refine .inr ⟨_, List.getElem_mem hmore, ?_, hmore⟩
    rw [hall, List.getElem?_append_left hmore, List.getElem?_eq_getElem hmore]
  · -- The items that come first are as many as those before, so they are the same.
    have hperm := (htake.subperm hsubset).perm_of_length_le (Nat.le_of_eq hsame.symm)
    have hnot : xs[k] ∉ mentionOrder refs (xs.take k) := by
      intro hmem
      rw [← hsplit] at h
      exact (List.nodup_append.1 h).2.2 _ (hperm.mem_iff.2 hmem) _ List.mem_cons_self rfl
    obtain ⟨more, hall⟩ := mentionOrder_append_cons hnot (xs.drop (k + 1))
    rw [hsplit] at hall
    rw [hlength] at hsame
    refine .inl ⟨?_, hsame.symm⟩
    rw [hall, List.getElem?_append_right (Nat.le_of_eq hsame.symm), ← hsame, Nat.sub_self]
    rfl

theorem perm_mentionOrder (h : xs.Nodup) (hrefs : ∀ x ∈ xs, ∀ y ∈ refs x, y ∈ xs) :
    (mentionOrder refs xs).Perm xs := by
  refine (List.perm_ext_iff_of_nodup (nodup_mentionOrder refs xs) h).2 fun y => ?_
  rw [mem_mentionOrder]
  constructor
  · rintro ⟨x, hx, rfl | hy⟩
    · exact hx
    · exact hrefs x hx y hy
  · intro hy
    exact ⟨y, hy, .inl rfl⟩

/-! ## Orders that are kept -/

/-- **An order is kept** if an item with the same place before and after mentions only items that
    have the same place before and after. -/
theorem mentionOrder_eq_self (h : xs.Nodup)
    (hlength : (mentionOrder refs xs).length = xs.length)
    (hfixed : ∀ (i : Nat) (x : α), xs[i]? = some x → (mentionOrder refs xs)[i]? = some x →
      ∀ y ∈ refs x, ∃ j : Nat, xs[j]? = some y ∧ (mentionOrder refs xs)[j]? = some y) :
    mentionOrder refs xs = xs := by
  refine List.ext_getElem? fun k => ?_
  induction k using Nat.strongRecOn with
  | ind k ih =>
    cases hx : xs[k]? with
    | none => rwa [List.getElem?_eq_none_iff, hlength, ← List.getElem?_eq_none_iff]
    | some x =>
      obtain ⟨hkept, -⟩ | ⟨y, hy, hplace, -⟩ := getElem?_mentionOrder refs h hx
      · exact hkept
      · -- What is mentioned before has its place, and this is the place it comes to.
        suffices hother : ∃ j : Nat, xs[j]? = some y ∧ (mentionOrder refs xs)[j]? = some y by
          obtain ⟨j, hj, hj'⟩ := hother
          have hsame : j = k := by
            obtain ⟨hlt, -⟩ := List.getElem?_eq_some_iff.1 hj'
            exact (List.getElem?_inj hlt (nodup_mentionOrder refs xs)).1 (hj'.trans hplace.symm)
          rw [hplace, ← hj, hsame, hx]
        obtain ⟨z, hz, hmentioned⟩ := mem_mentionOrder.1 hy
        obtain ⟨i, hi, hxi⟩ := List.mem_take_iff_getElem.1 hz
        have hplaced : xs[i]? = some z := by
          rw [List.getElem?_eq_getElem (by omega), hxi]
        have hkept : (mentionOrder refs xs)[i]? = some z := (ih i (by omega)).trans hplaced
        obtain rfl | hmem := hmentioned
        · exact ⟨i, hplaced, hkept⟩
        · exact hfixed i z hplaced hkept y hmem

/-! ## Orders that become settled -/

/-- **One step settles one more place.** -/
theorem take_succ_mentionOrder {k : Nat} (h : xs.Nodup) (hk : k < xs.length)
    (hsame : (mentionOrder refs xs).take k = xs.take k) :
    (mentionOrder refs (mentionOrder refs xs)).take (k + 1) =
      (mentionOrder refs xs).take (k + 1) := by
  -- Both start with what the settled items mention.
  have hstart (ys : List α) (hys : ys.take k = xs.take k) :
      ∃ more, mentionOrder refs ys = mentionOrder refs (xs.take k) ++ more := by
    obtain ⟨more, hmore⟩ := mentionOrder_append refs (ys.take k) (ys.drop k)
    rw [List.take_append_drop, hys] at hmore
    exact ⟨more, hmore⟩
  obtain ⟨more, hfirst⟩ := hstart xs rfl
  obtain ⟨others, hsecond⟩ := hstart (mentionOrder refs xs) hsame
  obtain ⟨hkept, hexact⟩ | ⟨-, -, -, hlt⟩ :=
    getElem?_mentionOrder refs h (List.getElem?_eq_getElem hk)
  · -- They mention nothing else, so what comes behind them comes behind them again.
    have hnext : (mentionOrder refs (mentionOrder refs xs))[k]? = some xs[k] := by
      obtain ⟨hkept', -⟩ | ⟨-, -, -, hlt⟩ :=
        getElem?_mentionOrder refs (nodup_mentionOrder refs xs) hkept
      · exact hkept'
      · rw [hsame, hexact] at hlt
        exact absurd hlt (Nat.lt_irrefl k)
    rw [List.take_add_one, List.take_add_one, hnext, hkept, hsecond, hfirst,
      List.take_left' hexact, List.take_left' hexact]
  · rw [hsecond, hfirst, List.take_append_of_le_length hlt, List.take_append_of_le_length hlt]

/-- **As many steps as there are items settle any order.** -/
theorem mentionOrder_iterate_eq (h : xs.Nodup) (hrefs : ∀ x ∈ xs, ∀ y ∈ refs x, y ∈ xs) :
    mentionOrder refs ((mentionOrder refs)^[xs.length] xs) =
      (mentionOrder refs)^[xs.length] xs := by
  have hperm (k : Nat) : ((mentionOrder refs)^[k] xs).Perm xs := by
    induction k with
    | zero => exact .refl xs
    | succ k ih =>
      rw [Function.iterate_succ_apply']
      have hclosed : ∀ x ∈ (mentionOrder refs)^[k] xs, ∀ y ∈ refs x,
          y ∈ (mentionOrder refs)^[k] xs := fun x hx y hy =>
        ih.mem_iff.2 (hrefs x (ih.mem_iff.1 hx) y hy)
      exact (perm_mentionOrder (ih.nodup_iff.2 h) hclosed).trans ih
  have hlength (k : Nat) : ((mentionOrder refs)^[k] xs).length = xs.length := (hperm k).length_eq
  have hsettled (k : Nat) (hk : k ≤ xs.length) :
      (mentionOrder refs ((mentionOrder refs)^[k] xs)).take k =
        ((mentionOrder refs)^[k] xs).take k := by
    induction k with
    | zero => rfl
    | succ k ih =>
      rw [Function.iterate_succ_apply']
      exact take_succ_mentionOrder ((hperm k).nodup_iff.2 h) (by rw [hlength]; omega)
        (ih (Nat.le_of_succ_le hk))
  have hall := hsettled xs.length (Nat.le_refl _)
  have hnext := hlength (xs.length + 1)
  rw [Function.iterate_succ_apply'] at hnext
  rwa [List.take_of_length_le (Nat.le_of_eq hnext),
    List.take_of_length_le (Nat.le_of_eq (hlength _))] at hall

end Bnf

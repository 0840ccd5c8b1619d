import Bnf.Proofs.Tree.Sketch

/-!
# The helpers of a rule are ordered

A helper mentions the helpers that were made for its parts, and these were made before it. The
helpers of a chain are made at once, and each mentions the next one. Only the helper of a repetition
mentions itself. So the helpers of a rule have ranks that every mention lowers, but for that one.

## Main definitions

- `Tree.Below` — a body mentions only helpers below a bound
- `Tree.Ranked` — mentions lower the rank, or are those of repetitions by themselves
- `Tree.Orderly` — there are such ranks

## Main results

- `Tree.Orderly.helpers` — new helpers keep helpers orderly
- `Tree.Rule.orderly_sketch` — the helpers of a rule are orderly
-/

namespace Bnf.Tree

variable {made made' : List HelperSketch} {body other : List Sketch} {bound : Nat}

/-! ## Bodies that mention earlier helpers -/

/-- A body mentions only helpers below a bound. -/
def Below (bound : Nat) (body : List Sketch) : Prop :=
  ∀ number, .helper number ∈ body → number < bound

theorem below_nil : Below bound [] := by
  intro number hnumber
  cases hnumber

theorem below_single {number : Nat} (h : number < bound) : Below bound [.helper number] := by
  intro found hfound
  cases List.mem_singleton.1 hfound
  exact h

/-- What mentions helpers below a bound does so below a larger one. -/
theorem Below.mono {bound' : Nat} (h : Below bound body) (hle : bound ≤ bound') :
    Below bound' body :=
  fun number hnumber => Nat.lt_of_lt_of_le (h number hnumber) hle

/-- Symbols behind each other mention the helpers of both. -/
theorem Below.append (h : Below bound body) (h' : Below bound other) :
    Below bound (body ++ other) := by
  intro number hnumber
  obtain hfirst | hsecond := List.mem_append.1 hnumber
  · exact h number hfirst
  · exact h' number hsecond

/-- Copies mention no other helpers. -/
theorem Below.copies (h : Below bound body) (count : Nat) :
    Below bound (List.replicate count body).flatten := by
  intro number hnumber
  obtain ⟨copy, hcopy, hnumber⟩ := List.mem_flatten.1 hnumber
  rw [List.eq_of_mem_replicate hcopy] at hnumber
  exact h number hnumber

/-! ## Ranks -/

/-- **Mentions lower the rank**, but for those of a repetition by itself. -/
structure Ranked (rank : Nat → Nat) (made : List HelperSketch) : Prop where
  bounded : ∀ number < made.length, rank number < made.length
  lower : ∀ {number : Nat} {helper : HelperSketch}, made[number]? = some helper →
    ∀ body ∈ helper.alternatives, ∀ other, .helper other ∈ body → other < made.length ∧
      (rank other < rank number ∨ other = number ∧ helper.kind = .repetition)

/-- The helpers that have been made have ranks. -/
def Orderly (made : List HelperSketch) : Prop :=
  ∃ rank, Ranked rank made

theorem orderly_nil : Orderly [] :=
  ⟨id, fun _ hnumber => absurd hnumber (Nat.not_lt_zero _), by simp⟩

/-- **New helpers keep helpers orderly** if each mentions only earlier ones, later ones that are
    made with it, or as a repetition itself. -/
theorem Orderly.helpers {kind : HelperKind} {count : Nat}
    {alternatives : Nat → List (List Sketch)} (h : Orderly made)
    (hmentions : ∀ i < count, ∀ body ∈ alternatives (made.length + i), ∀ other,
      .helper other ∈ body → other < made.length ∨
        (made.length + i < other ∧ other < made.length + count) ∨
        (other = made.length + i ∧ kind = .repetition)) :
    Orderly (made ++ (List.range' made.length count).map fun number =>
      ⟨kind, alternatives number⟩) := by
  obtain ⟨rank, hrank⟩ := h
  -- The new helpers rank above the others, and the sooner they come the higher.
  refine ⟨fun number => if number < made.length then rank number
    else 2 * made.length + count - 1 - number, ?_, ?_⟩
  · intro number hnumber
    simp only [List.length_append, List.length_map, List.length_range'] at hnumber ⊢
    split
    · next hold => exact Nat.lt_add_right count (hrank.bounded number hold)
    · omega
  · intro number helper hhelper body hbody other hother
    simp only [List.length_append, List.length_map, List.length_range']
    by_cases hold : number < made.length
    · rw [List.getElem?_append_left hold] at hhelper
      obtain ⟨hlt, hlower⟩ := hrank.lower hhelper body hbody other hother
      rw [if_pos hlt, if_pos hold]
      exact ⟨Nat.lt_add_right count hlt, hlower⟩
    · rw [List.getElem?_append_right (Nat.not_lt.1 hold), List.getElem?_map] at hhelper
      obtain ⟨found, hfound, rfl⟩ := Option.map_eq_some_iff.1 hhelper
      obtain ⟨hi, hat⟩ := List.getElem?_eq_some_iff.1 hfound
      rw [List.length_range'] at hi
      obtain rfl : number = found := by
        rw [List.getElem_range'] at hat
        omega
      have hplace : made.length + (number - made.length) = number :=
        Nat.add_sub_cancel' (Nat.not_lt.1 hold)
      rw [← hplace] at hbody
      rw [if_neg hold]
      obtain hearlier | ⟨hlater, hlt⟩ | ⟨hself, hkind⟩ :=
        hmentions (number - made.length) hi body hbody other hother
      · have := hrank.bounded other hearlier
        rw [if_pos hearlier]
        omega
      · rw [if_neg (by omega)]
        omega
      · exact ⟨by omega, .inr ⟨by omega, hkind⟩⟩

/-! ## Sketches -/

/-- A sketch comes from some helpers to others: they are orderly, and the bodies mention only those
    that have been made. -/
structure Comes (made : List HelperSketch) (bodies : List (List Sketch))
    (made' : List HelperSketch) : Prop where
  orderly : Orderly made'
  grows : made.length ≤ made'.length
  below : ∀ body ∈ bodies, Below made'.length body

namespace Comes

variable {bodies bodies' : List (List Sketch)} {made'' : List HelperSketch}

/-- Helpers that come later come behind all that came before. -/
theorem trans (h : Comes made bodies made') (h' : Comes made' bodies' made'') :
    Comes made bodies' made'' :=
  ⟨h'.orderly, Nat.le_trans h.grows h'.grows, h'.below⟩

/-- Without a new helper there is nothing to show. -/
theorem refl (h : Orderly made) (hbody : Below made.length body) : Comes made [body] made :=
  ⟨h, Nat.le_refl _, List.forall_mem_singleton.2 hbody⟩

/-- Repetitions mention earlier helpers and their own. -/
theorem repetition (h : Orderly made) (hbody : Below made.length body) (bounds : Bounds) :
    Comes made [(Sketching.repetition body bounds made).1]
      (Sketching.repetition body bounds made).2 := by
  obtain ⟨min, max⟩ := bounds
  have hcopies := hbody.copies min
  cases max with
  | none =>
    have horderly := @Orderly.helpers made .repetition 1
      (fun number => [body ++ [.helper number], []]) h fun i hi found hfound other hother => by
        obtain rfl : i = 0 := Nat.lt_one_iff.1 hi
        simp only [List.mem_cons, List.not_mem_nil, or_false] at hfound
        obtain rfl | rfl := hfound
        · rw [List.mem_append, List.mem_singleton] at hother
          obtain hinner | hself := hother
          · exact .inl (hbody other hinner)
          · cases hself
            exact .inr (.inr ⟨rfl, rfl⟩)
        · cases hother
    have hlength : (Sketching.repetition body ⟨min, none⟩ made).2.length = made.length + 1 := by
      show (made ++ _).length = _
      simp
    refine ⟨horderly, by omega, List.forall_mem_singleton.2 ?_⟩
    rw [hlength]
    exact (hcopies.mono (Nat.le_succ _)).append (below_single (Nat.lt_succ_self _))
  | some max =>
    have horderly := @Orderly.helpers made .optional (max - min)
      (fun number => [body ++ if number + 1 < made.length + (max - min) then
        [.helper (number + 1)] else [], []]) h fun i hi found hfound other hother => by
        simp only [List.mem_cons, List.not_mem_nil, or_false] at hfound
        obtain rfl | rfl := hfound
        · obtain hinner | hnext := List.mem_append.1 hother
          · exact .inl (hbody other hinner)
          · split at hnext
            · next hlt =>
              cases List.mem_singleton.1 hnext
              exact .inr (.inl ⟨Nat.lt_succ_self _, hlt⟩)
            · cases hnext
        · cases hother
    have hlength : (Sketching.repetition body ⟨min, some max⟩ made).2.length =
        made.length + (max - min) := by
      show (made ++ _).length = _
      simp
    refine ⟨horderly, by omega, List.forall_mem_singleton.2 ?_⟩
    rw [hlength]
    refine (hcopies.mono (Nat.le_add_right _ _)).append ?_
    split
    · exact below_nil
    · next hcount => exact below_single (Nat.lt_add_of_pos_right (Nat.pos_of_ne_zero hcount))

/-- Groups mention earlier helpers. -/
theorem group (h : Orderly made) (hbodies : ∀ body ∈ bodies, Below made.length body) :
    Comes made [(Sketching.group bodies made).1] (Sketching.group bodies made).2 := by
  have horderly := @Orderly.helpers made .group 1 (fun _ => bodies) h
    fun _ _ body hbody other hother => .inl (hbodies body hbody other hother)
  have hhelper : Comes made [[.helper made.length]]
      (made ++ (List.range' made.length 1).map fun _ => ⟨.group, bodies⟩) := by
    refine ⟨horderly, by simp, List.forall_mem_singleton.2 (below_single ?_)⟩
    simp
  match bodies, hbodies, hhelper with
  | [body], hbodies, _ => exact .refl h (hbodies body (List.mem_singleton_self _))
  | [], _, hhelper | _ :: _ :: _, _, hhelper => exact hhelper

end Comes

mutual

/-- **The sketch of an atom** keeps helpers orderly. -/
theorem Atom.sketch_comes : (atom : Atom) → ∀ {made : List HelperSketch}, Orderly made →
    Comes made [(atom.sketch made).1] (atom.sketch made).2
  | .literal chars _, made, h => .refl h fun number hnumber => by
    obtain ⟨c, -, hc⟩ := List.mem_map.1 hnumber
    cases hc
  | .set .., made, h | .any _, made, h | .name .., made, h => .refl h fun number hnumber => by
    cases List.mem_singleton.1 hnumber
  | .group _ alternatives _, made, h => by
    have hinner := sketchAlternation_comes alternatives h
    exact hinner.trans (.group hinner.orderly hinner.below)
termination_by structural atom => atom

/-- The helper of a repetition comes behind those of its atom. -/
theorem Term.sketch_comes : (term : Term) → ∀ {made : List HelperSketch}, Orderly made →
    Comes made [(term.sketch made).1] (term.sketch made).2
  | .mk atom none, made, h => atom.sketch_comes h
  | .mk atom (some operator), made, h => by
    have hinner := atom.sketch_comes h
    exact hinner.trans
      (.repetition hinner.orderly (hinner.below _ (List.mem_singleton_self _)) operator.bounds)
termination_by structural term => term

theorem sketchSequence_comes : (terms : List Term) → ∀ {made : List HelperSketch}, Orderly made →
    Comes made [(sketchSequence terms made).1] (sketchSequence terms made).2
  | [], made, h => .refl h below_nil
  | term :: terms, made, h => by
    have hfirst := term.sketch_comes h
    have hothers := sketchSequence_comes terms hfirst.orderly
    refine ⟨hothers.orderly, Nat.le_trans hfirst.grows hothers.grows,
      List.forall_mem_singleton.2 ?_⟩
    exact ((hfirst.below _ (List.mem_singleton_self _)).mono hothers.grows).append
      (hothers.below _ (List.mem_singleton_self _))
termination_by structural terms => terms

theorem sketchAlternation_comes : (alternatives : List (List Term)) →
    ∀ {made : List HelperSketch}, Orderly made →
    Comes made (sketchAlternation alternatives made).1 (sketchAlternation alternatives made).2
  | [], made, h => ⟨h, Nat.le_refl _, fun _ hbody => absurd hbody List.not_mem_nil⟩
  | terms :: alternatives, made, h => by
    have hfirst := sketchSequence_comes terms h
    have hothers := sketchAlternation_comes alternatives hfirst.orderly
    refine ⟨hothers.orderly, Nat.le_trans hfirst.grows hothers.grows,
      List.forall_mem_cons.2 ⟨?_, hothers.below⟩⟩
    exact (hfirst.below _ (List.mem_singleton_self _)).mono hothers.grows
termination_by structural alternatives => alternatives

end

/-- **The helpers of a rule are orderly.** -/
theorem Rule.orderly_sketch (rule : Rule) : Orderly rule.sketch.2 :=
  (sketchAlternation_comes rule.alternatives orderly_nil).orderly

end Bnf.Tree

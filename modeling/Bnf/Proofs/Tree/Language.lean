import Bnf.Proofs.Language
import Bnf.Proofs.Tree

/-!
# The language of a syntax tree

The language of a syntax tree is read off its form: bars are unions, what stands side by side is
concatenated, and an operator stands for the powers that its bounds allow. Names stand for the
least languages that solve the equations of the rules.

## Main definitions

- `Bounds.language` — the powers that bounds allow
- `Tree.Atom.language`, `Tree.alternationLanguage` — what a part of a tree stands for
- `Tree.language` — the language of each name, the least fixed point

## Main results

- `Bounds.language_question`, `Bounds.language_star`, `Bounds.language_plus` — the operators
  without counts
- `Bounds.language_bounded` — copies that must be there, and copies that may be there
- `Tree.language_eq` — a name stands for what its rule says
-/

namespace Bnf

open Computability

/-- The union of the powers of a language whose exponents are within the bounds. -/
def Bounds.language (b : Bounds) (X : Language Char) : Language Char :=
  ⨆ (k : Nat) (_ : b.min ≤ k ∧ ∀ max, b.max = some max → k ≤ max), X ^ k

/-- At most `n` copies of a language. -/
def copiesUpTo (X : Language Char) (n : Nat) : Language Char :=
  ⨆ (k : Nat) (_ : k ≤ n), X ^ k

section

variable {X Y : Language Char} {m n : Nat}

/-- More texts to repeat make more texts that are repeated. -/
theorem Bounds.language_mono {b : Bounds} (h : X ≤ Y) : b.language X ≤ b.language Y :=
  iSup₂_mono fun k _ => pow_le_pow_left' h k

/-- A number of copies up to the last one is among them. -/
theorem pow_le_copiesUpTo {k : Nat} (h : k ≤ n) : X ^ k ≤ copiesUpTo X n :=
  le_iSup₂_of_le k h le_rfl

@[simp] theorem copiesUpTo_zero : copiesUpTo X 0 = 1 := by
  apply le_antisymm
  · refine iSup₂_le fun k hk => ?_
    rw [Nat.le_zero.1 hk, pow_zero]
  · exact pow_le_copiesUpTo (le_refl 0)

theorem copiesUpTo_mono (h : X ≤ Y) : copiesUpTo X n ≤ copiesUpTo Y n :=
  iSup₂_mono fun k _ => pow_le_pow_left' h k

/-- One copy more is none at all, or a copy and then as many as before. Chains of helpers are built
    this way. -/
theorem copiesUpTo_succ : copiesUpTo X (n + 1) = 1 + X * copiesUpTo X n := by
  apply le_antisymm
  · refine iSup₂_le fun k hk => ?_
    cases k with
    | zero =>
      rw [pow_zero]
      exact le_self_add
    | succ k =>
      rw [pow_succ']
      exact le_add_of_le_right (mul_le_mul_right (pow_le_copiesUpTo (Nat.le_of_succ_le_succ hk)) X)
  · rw [add_le_iff]
    refine ⟨pow_le_copiesUpTo (Nat.zero_le _), ?_⟩
    rw [copiesUpTo, Language.mul_iSup]
    refine iSup_le fun k => ?_
    rw [Language.mul_iSup]
    refine iSup_le fun hk => ?_
    rw [← pow_succ']
    exact pow_le_copiesUpTo (Nat.succ_le_succ hk)

/-- **A repetition without an upper bound** is as many copies as there must be, and then any number
    of them. -/
theorem Bounds.language_unbounded : Bounds.language ⟨m, none⟩ X = X ^ m * X∗ := by
  rw [Language.kstar_eq_iSup_pow, Language.mul_iSup]
  apply le_antisymm
  · refine iSup₂_le fun k hk => le_iSup_of_le (k - m) ?_
    rw [← pow_add, Nat.add_sub_cancel' hk.1]
  · refine iSup_le fun k => ?_
    rw [← pow_add]
    exact le_iSup₂_of_le (m + k) ⟨Nat.le_add_right m k, by simp⟩ le_rfl

/-- **A repetition with an upper bound** is as many copies as there must be, and then up to as many
    as are left. -/
theorem Bounds.language_bounded (h : m ≤ n) :
    Bounds.language ⟨m, some n⟩ X = X ^ m * copiesUpTo X (n - m) := by
  rw [copiesUpTo, Language.mul_iSup]
  simp only [Language.mul_iSup, ← pow_add]
  apply le_antisymm
  · refine iSup₂_le fun k hk => ?_
    have hle : k ≤ n := hk.2 n rfl
    refine le_iSup₂_of_le (k - m) (by omega) ?_
    rw [Nat.add_sub_cancel' hk.1]
  · refine iSup₂_le fun k hk => ?_
    refine le_iSup₂_of_le (m + k) ⟨Nat.le_add_right m k, ?_⟩ le_rfl
    rintro max ⟨⟩
    omega

/-- The mark of a question makes a term optional. -/
theorem Bounds.language_question : Bounds.language ⟨0, some 1⟩ X = 1 + X := by
  rw [language_bounded (Nat.zero_le 1), pow_zero, one_mul, copiesUpTo_succ, copiesUpTo_zero,
    mul_one]

/-- The star is that of languages. -/
theorem Bounds.language_star : Bounds.language ⟨0, none⟩ X = X∗ := by
  rw [language_unbounded, pow_zero, one_mul]

/-- The plus sign asks for one copy at least. -/
theorem Bounds.language_plus : Bounds.language ⟨1, none⟩ X = X * X∗ := by
  rw [language_unbounded, pow_one]

end

namespace Tree

/-! ## The language of a tree -/

mutual

/-- What an atom stands for if names stand for the languages in `L`. -/
def Atom.language (L : String → Language Char) : Atom → Language Char
  | .literal chars _ => {chars}
  | .set chars _ => chars.language
  | .any _ => {text | ∃ c, text = [c]}
  | .name text _ => L text
  | .group _ alternatives _ => alternationLanguage L alternatives
termination_by structural atom => atom

/-- What a term stands for: the powers of its atom that the operator allows. -/
def Term.language (L : String → Language Char) : Term → Language Char
  | .mk atom none => atom.language L
  | .mk atom (some operator) => operator.bounds.language (atom.language L)
termination_by structural term => term

/-- What a sequence stands for: its terms, one after the other. -/
def sequenceLanguage (L : String → Language Char) : List Term → Language Char
  | [] => 1
  | term :: terms => term.language L * sequenceLanguage L terms
termination_by structural terms => terms

/-- What alternatives stand for: any of them. -/
def alternationLanguage (L : String → Language Char) : List (List Term) → Language Char
  | [] => 0
  | terms :: alternatives => sequenceLanguage L terms + alternationLanguage L alternatives
termination_by structural alternatives => alternatives

end

section

variable {K L : String → Language Char}

mutual

/-- Languages of names are used, not looked into: larger ones make the language of a tree larger.
    The cases are those of the tree. -/
theorem Atom.language_mono (h : K ≤ L) : (atom : Atom) → atom.language K ≤ atom.language L
  | .literal .. | .set .. | .any _ => le_rfl
  | .name text _ => h text
  | .group _ alternatives _ => alternationLanguage_mono h alternatives
termination_by structural atom => atom

theorem Term.language_mono (h : K ≤ L) : (term : Term) → term.language K ≤ term.language L
  | .mk atom none => atom.language_mono h
  | .mk atom (some _) => Bounds.language_mono (atom.language_mono h)
termination_by structural term => term

theorem sequenceLanguage_mono (h : K ≤ L) :
    (terms : List Term) → sequenceLanguage K terms ≤ sequenceLanguage L terms
  | [] => le_rfl
  | term :: terms => mul_le_mul' (term.language_mono h) (sequenceLanguage_mono h terms)
termination_by structural terms => terms

theorem alternationLanguage_mono (h : K ≤ L) :
    (alternatives : List (List Term)) →
      alternationLanguage K alternatives ≤ alternationLanguage L alternatives
  | [] => le_rfl
  | terms :: alternatives =>
    add_le_add (sequenceLanguage_mono h terms) (alternationLanguage_mono h alternatives)
termination_by structural alternatives => alternatives

end

end

/-- The equations of some rules: what names stand for if those that are mentioned stand for the
    languages in `L`. -/
def equations (rules : List Rule) : (String → Language Char) →o (String → Language Char) where
  toFun L name :=
    ⨆ (rule ∈ rules) (_ : rule.name = name), alternationLanguage L rule.alternatives
  monotone' _ _ h _ :=
    iSup₂_mono fun rule _ => iSup_mono fun _ => alternationLanguage_mono h rule.alternatives

/-- **The language of each name**: the least solution of the equations. -/
def language (rules : List Rule) : String → Language Char :=
  (equations rules).lfp

variable {rules : List Rule} {rule : Rule} {K : String → Language Char} {name : String}
  {X : Language Char}

/-- What the equations give for a name is within a language if each rule with this name is. -/
theorem equations_le_iff :
    equations rules K name ≤ X ↔
      ∀ rule ∈ rules, rule.name = name → alternationLanguage K rule.alternatives ≤ X := by
  show (⨆ (rule ∈ rules) (_ : rule.name = name), _) ≤ X ↔ _
  simp only [iSup_le_iff]

/-- The languages of names are the least that take in what their rules say. -/
theorem language_le (h : ∀ rule ∈ rules, alternationLanguage K rule.alternatives ≤ K rule.name) :
    language rules ≤ K := by
  refine (equations rules).lfp_le fun name => equations_le_iff.2 fun rule hrule hname => ?_
  exact hname ▸ h rule hrule

/-- **A name stands for what its rule says**, if no other rule has this name. -/
theorem language_eq (hdistinct : (rules.map (·.name)).Nodup) (hrule : rule ∈ rules) :
    language rules rule.name = alternationLanguage (language rules) rule.alternatives := by
  have hfixed : equations rules (language rules) rule.name = language rules rule.name :=
    congrFun (equations rules).map_lfp rule.name
  apply le_antisymm
  · rw [← hfixed, equations_le_iff]
    intro other hother hname
    rw [List.inj_on_of_nodup_map hdistinct hother hrule hname]
  · rw [← hfixed]
    exact equations_le_iff.1 le_rfl rule hrule rfl

end Tree

end Bnf

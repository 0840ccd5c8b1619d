import Mathlib.Data.List.Induction
import Bnf.Proofs.Tree.Hygiene

/-!
# Identities follow first mentions

A name of the source gets its identity where it is mentioned first, and helpers get theirs in
between. So among the entries of the final table those of the names of the source are the first
mentions of these names, in the order of the text, wherever helpers stand between them.

## Main definitions

- `firstMentions` — the first mention of each name
- `definitions` — the names that tokens define
- `SymbolTable.mentionsOf` — the entries of some names, as mentions
- `Tree.Table.Records` — the entries of a table are first mentions, the other rules are helpers

## Main results

- `Tree.Table.Grows.records` — what a run of mentions and new helpers records
- `Tree.table_records` — what the table of a text records
- `Grammar.identities_follow_mentions` — identities, spans and root of a grammar, from the tokens
-/

namespace Bnf

/-! ## First mentions -/

/-- The first mention of each name, in order. -/
def firstMentions (mentions : List (String × Span)) : List (String × Span) :=
  mentions.foldl (fun first mention =>
    first ++ if mention.1 ∈ first.map (·.1) then [] else [mention]) []

theorem Token.mention?_eq_some_iff {token : Token} {name : String} {span : Span} :
    token.mention? = some (name, span) ↔ token = ⟨.name name, span⟩ := by
  obtain ⟨kind, place⟩ := token
  cases kind <;> simp [Token.mention?]

/-- **A search among the mentions of names is a search among the tokens.** -/
theorem find?_mention?_eq_some_iff {tokens : List Token} {p : String → Bool} {name : String}
    {span : Span} : (tokens.filterMap Token.mention?).find? (fun mention => p mention.1) =
        some (name, span) ↔
      p name = true ∧ ∃ before after, tokens = before ++ ⟨.name name, span⟩ :: after ∧
        ∀ token ∈ before, ∀ other, token.kind = .name other → p other = false := by
  have hnone (token : Token) : (token.mention?.any fun mention => p mention.1) = false ↔
      ∀ other, token.kind = .name other → p other = false := by
    rw [Token.mention?]
    cases token.kind <;> simp
  rw [List.find?_filterMap, Option.bind_eq_some_iff]
  simp only [List.find?_eq_some_iff_append, Token.mention?_eq_some_iff, Bool.not_eq_true', hnone]
  constructor
  · rintro ⟨_, ⟨hname, hsplit⟩, rfl⟩
    exact ⟨hname, hsplit⟩
  · rintro ⟨hname, hsplit⟩
    exact ⟨⟨.name name, span⟩, ⟨hname, hsplit⟩, rfl⟩

section FirstMentions

variable {mentions : List (String × Span)} {mention : String × Span} {name : String}

@[simp] theorem firstMentions_nil : firstMentions [] = [] :=
  rfl

theorem firstMentions_concat : firstMentions (mentions ++ [mention]) =
    firstMentions mentions ++
      if mention.1 ∈ (firstMentions mentions).map (·.1) then [] else [mention] := by
  rw [firstMentions, List.foldl_append]
  rfl

theorem map_fst_firstMentions :
    (firstMentions mentions).map (·.1) = (mentions.map (·.1)).eraseDups := by
  induction mentions using List.reverseRecOn with
  | nil => rfl
  | append_singleton mentions mention ih =>
    rw [firstMentions_concat, List.map_append, List.map_append, List.eraseDups_append, ih]
    by_cases hmem : mention.1 ∈ mentions.map (·.1)
    · rw [if_pos (List.mem_eraseDups.2 hmem)]
      simp [List.removeAll, hmem]
    · rw [if_neg (mt List.mem_eraseDups.1 hmem)]
      simp [List.removeAll, hmem, List.eraseDups_cons]

/-- A search by name finds the same among the first mentions as among all. -/
theorem find?_firstMentions (p : String → Bool) :
    (firstMentions mentions).find? (fun mention => p mention.1) =
      mentions.find? fun mention => p mention.1 := by
  induction mentions using List.reverseRecOn with
  | nil => rfl
  | append_singleton mentions mention ih =>
    rw [firstMentions_concat, List.find?_append, List.find?_append, ih]
    by_cases hmem : mention.1 ∈ (firstMentions mentions).map (·.1)
    · -- If the name of the last mention is searched for, an earlier mention of it has been found.
      rw [if_pos hmem, List.find?_nil, Option.or_none]
      cases hfound : mentions.find? fun mention => p mention.1 with
      | some found => rfl
      | none =>
        rw [map_fst_firstMentions, List.mem_eraseDups, List.mem_map] at hmem
        obtain ⟨other, hother, hsame⟩ := hmem
        have hfalse := List.find?_eq_none.1 hfound other hother
        rw [hsame] at hfalse
        simp [hfalse]
    · rw [if_neg hmem]

end FirstMentions

/-! ## Entries -/

namespace SymbolTable

variable {t : SymbolTable} {mentioned : List String} {owner name : String} {span : Span}

/-- The entries of the names among some names, in the order of their identities. -/
def mentionsOf (t : SymbolTable) (mentioned : List String) : List (String × Span) :=
  (t.entries.toList.filter (·.name ∈ mentioned)).map fun entry => (entry.name, entry.mention)

theorem mentionsOf_push : (t.push name span).2.mentionsOf mentioned =
    t.mentionsOf mentioned ++ if name ∈ mentioned then [(name, span)] else [] := by
  by_cases hname : name ∈ mentioned
  · simp [mentionsOf, push, List.filter_append, hname]
  · simp [mentionsOf, push, List.filter_append, hname]

theorem map_fst_mentionsOf :
    (t.mentionsOf mentioned).map (·.1) = t.names.filter (· ∈ mentioned) := by
  rw [mentionsOf, names, List.filter_map, List.map_map]
  rfl

/-- A mention of a name of the source is recorded if it is the first one. -/
theorem mentionsOf_intern (hname : name ∈ mentioned) : (t.intern name span).2.mentionsOf mentioned =
    t.mentionsOf mentioned ++
      if name ∈ (t.mentionsOf mentioned).map (·.1) then [] else [(name, span)] := by
  rw [map_fst_mentionsOf, intern]
  by_cases hmem : name ∈ t.names
  · obtain ⟨id, hid⟩ := Option.isSome_iff_exists.1 (find?_isSome_iff.2 hmem)
    simp [hid, hmem, hname]
  · rw [find?_eq_none_iff.2 hmem, mentionsOf_push]
    simp [hmem, hname]

/-- The entry of a name is found by a search among the entries of some names. -/
theorem find?_mentionsOf (hdistinct : t.names.Nodup) {id : Nat} (hname : t.name? id = some name)
    (hmentioned : name ∈ mentioned) : ∃ span, t.mention? id = some span ∧
      (t.mentionsOf mentioned).find? (·.1 = name) = some (name, span) := by
  obtain ⟨entry, hentry, rfl⟩ := Option.map_eq_some_iff.1 hname
  have hmem : entry ∈ t.entries.toList := List.mem_of_getElem? (by rwa [Array.getElem?_toList])
  refine ⟨entry.mention, by rw [mention?, hentry]; rfl, ?_⟩
  have hmention : (entry.name, entry.mention) ∈ t.mentionsOf mentioned :=
    List.mem_map_of_mem (List.mem_filter.2 ⟨hmem, by simpa using hmentioned⟩)
  cases hfound : (t.mentionsOf mentioned).find? (·.1 = entry.name) with
  | none => exact absurd (List.find?_eq_none.1 hfound _ hmention) (by simp)
  | some found =>
    -- An entry that is found has the same name, and names are distinct.
    obtain ⟨other, hother, rfl⟩ := List.mem_map.1 (List.mem_of_find?_eq_some hfound)
    have hsame := List.inj_on_of_nodup_map hdistinct (List.mem_filter.1 hother).1 hmem
      (by simpa using List.find?_some hfound)
    rw [hsame]

/-- New helpers have none of the names of the source. -/
theorem mentionsOf_generateMany (count : Nat)
    (hkept : ∀ name ∈ mentioned, isReserved name = true → name ∈ t.reserved) :
    (t.generateMany owner span count).mentionsOf mentioned = t.mentionsOf mentioned := by
  induction count generalizing t with
  | zero => rfl
  | succ count ih =>
    have hnew : t.newName owner ∉ mentioned := fun hmem =>
      newName_not_mem_reserved (hkept _ hmem (isReserved_helperName owner _))
    rw [generateMany, ih (by simpa [generate_eq_push] using hkept), generate_eq_push,
      mentionsOf_push, if_neg hnew, List.append_nil]

end SymbolTable

namespace Tree

namespace Table

variable {t u : Table} {mentioned done : List String} {before : List (String × Span)}
  {kind : HelperKind} {owner name : String} {span : Span} {id : Nat} {rule : Bnf.Rule}
  {count : Nat} {alternatives : RuleId → List Body}

/-- **A table records what was mentioned**: the entries of the names of the source are the first
    mentions in order, and a rule that is no helper is one of these names. -/
structure Records (mentioned : List String) (t : Table) (mentions : List (String × Span)) :
    Prop where
  entries : t.symbols.mentionsOf mentioned = firstMentions mentions
  defined : ∀ {id : Nat} {rule : Bnf.Rule}, t.rule? id = some rule → rule.isHelper = false →
    ∃ name ∈ mentioned, t.symbols.name? id = some name

namespace Records

theorem mention (h : t.Records mentioned before) (hsound : t.Sound mentioned done)
    (hname : name ∈ mentioned) :
    (t.mention name span).2.Records mentioned (before ++ [(name, span)]) := by
  refine ⟨?_, fun {id rule} hrule hhelper => ?_⟩
  · rw [firstMentions_concat, ← h.entries]
    exact SymbolTable.mentionsOf_intern hname
  · obtain ⟨other, hother, hid⟩ := h.defined hrule hhelper
    exact ⟨other, hother, (@hsound.mention _ _ span _ _ hname).2.name? hid⟩

theorem addHelpers (h : t.Records mentioned before) (hsound : t.Sound mentioned done) :
    (t.addHelpers kind owner span count alternatives).Records mentioned before := by
  refine ⟨?_, fun {id rule} hrule hhelper => ?_⟩
  · rw [← h.entries]
    exact SymbolTable.mentionsOf_generateMany count hsound.kept
  · rw [rule?_addHelpers] at hrule
    split at hrule
    · cases hrule
      cases hhelper
    · obtain ⟨name, hname, hid⟩ := h.defined hrule hhelper
      exact ⟨name, hname, hsound.addHelpers.2.name? hid⟩

theorem define (h : t.Records mentioned before) (hname : t.symbols.name? id = some name)
    (hmentioned : name ∈ mentioned) : (t.define id rule).Records mentioned before := by
  refine ⟨h.entries, fun {other found} hfound hhelper => ?_⟩
  rw [rule?_define] at hfound
  by_cases hsame : other = id
  · subst hsame
    exact ⟨name, hmentioned, hname⟩
  · rw [Function.update_of_ne hsame] at hfound
    exact h.defined hfound hhelper

end Records

/-- **What a run of mentions and new helpers records.** -/
theorem Grows.records {mentions : List (String × Span)} (h : t.Grows mentions u)
    (hmentioned : ∀ mention ∈ mentions, mention.1 ∈ mentioned) (hsound : t.Sound mentioned done)
    (hrecords : t.Records mentioned before) : u.Records mentioned (before ++ mentions) := by
  induction h with
  | refl => rwa [List.append_nil]
  | mention hgrows ih =>
    rw [List.forall_mem_append] at hmentioned
    rw [← List.append_assoc]
    have hmiddle := (hgrows.sound hmentioned.1 hsound).1
    exact (ih hmentioned.1).mention hmiddle (hmentioned.2 _ (List.mem_singleton_self _))
  | helpers hgrows ih =>
    have hmiddle := (hgrows.sound hmentioned hsound).1
    exact (ih hmentioned).addHelpers hmiddle

end Table

/-! ## Rules -/

open Expanding

variable {t : Table} {mentioned done : List String} {before : List (String × Span)} {rule : Rule}
  {rules : List Rule} {tokens : List Token}

theorem Rule.expanded_grows (rule : Rule) (t : Table) : t.Grows rule.mentions (rule.expanded t) :=
  ((mention_grows rule.name rule.span).bind fun _ =>
    expandAlternation_grows rule.name rule.alternatives) t

theorem Rule.expand_records (hsound : t.Sound mentioned done)
    (hmentioned : ∀ mention ∈ rule.mentions, mention.1 ∈ mentioned)
    (h : t.Records mentioned before) :
    (rule.expand t).2.Records mentioned (before ++ rule.mentions) := by
  obtain ⟨-, -, -, hname⟩ := Rule.expanded_sound hsound hmentioned
  rw [Rule.expand_eq_define]
  exact ((rule.expanded_grows t).records hmentioned hsound h).define hname
    (hmentioned (rule.name, rule.span) List.mem_cons_self)

/-- **Expanding rules** records what they mention. -/
theorem expandRules_records (hsound : t.Sound mentioned done)
    (hmentioned : ∀ name ∈ names rules, name ∈ mentioned)
    (hdistinct : (rules.map (·.name)).Nodup) (hnew : ∀ rule ∈ rules, rule.name ∉ done)
    (h : t.Records mentioned before) :
    (expandRules rules t).2.Records mentioned (before ++ rules.flatMap Rule.mentions) := by
  induction rules generalizing t done before with
  | nil =>
    rw [List.flatMap_nil, List.append_nil]
    exact h
  | cons rule rules ih =>
    have hothers := forall_not_mem_cons hdistinct hnew
    rw [forall_mem_names_cons] at hmentioned
    rw [List.map_cons, List.nodup_cons] at hdistinct
    have hrule := Rule.expand_sound hsound hmentioned.1 (hnew rule List.mem_cons_self)
    rw [List.flatMap_cons, ← List.append_assoc]
    exact ih hrule.1 hmentioned.2 hdistinct.2 hothers (Rule.expand_records hsound hmentioned.1 h)

/-- **The table of rules** records what they mention. -/
theorem table_records (hdistinct : (rules.map (·.name)).Nodup) :
    (table rules).Records (names rules) (rules.flatMap Rule.mentions) := by
  have hnone : (start rules).symbols.mentionsOf (names rules) = [] := by
    rw [← List.map_eq_nil_iff, SymbolTable.map_fst_mentionsOf]
    simp [start]
  have hstart : (start rules).Records (names rules) [] :=
    ⟨hnone, fun {id rule} hrule => absurd hrule (by simp [start, Table.rule?])⟩
  exact expandRules_records (start_sound rules) (fun _ hname => hname) hdistinct (by simp) hstart

/-! ## Definitions -/

end Tree

/-- The names that tokens define, each with its span: those with the sign of definition behind
    them. -/
def definitions : (tokens : List Token) → List (String × Span)
  | token :: next :: rest =>
    (if next.kind = .define then token.mention?.toList else []) ++ definitions (next :: rest)
  | _ => []

theorem Newlines.ne_define {gap : List Token} (h : Newlines gap) :
    ∀ token ∈ gap, token.kind ≠ .define := by
  intro token htoken
  rw [h token htoken]
  nofun

theorem definitions_append {tokens others : List Token}
    (h : ∀ token, others.head? = some token → token.kind ≠ .define) :
    definitions (tokens ++ others) = definitions tokens ++ definitions others :=
  match tokens, others with
  | [], _ => rfl
  | [token], [] => rfl
  | [token], next :: rest => by
    rw [List.singleton_append, definitions, if_neg (h next rfl)]
    rfl
  | token :: next :: rest, others => by
    have ih := @definitions_append (next :: rest) others h
    rw [List.cons_append, List.cons_append, definitions, definitions, List.append_assoc, ← ih]
    rfl

theorem definitions_eq_nil {tokens : List Token}
    (h : ∀ token ∈ tokens, token.kind ≠ .define) : definitions tokens = [] := by
  fun_induction definitions tokens with
  | case1 token next rest ih =>
    rw [List.forall_mem_cons] at h
    rw [if_neg (h.2 next List.mem_cons_self), ih h.2]
    rfl
  | case2 => rfl

namespace Tree

variable {rule : Rule} {rules : List Rule} {tokens : List Token}

mutual

/-- The sign of definition stands in no atom. -/
theorem Atom.Spelled.ne_define {atom : Atom} {tokens : List Token} :
    atom.Spelled tokens → ∀ token ∈ tokens, token.kind ≠ .define
  | .literal | .set | .any | .name => by simp
  | .group hfront hinner hback => by
    have := hinner.ne_define
    simp only [List.forall_mem_cons, List.forall_mem_append]
    exact ⟨nofun, hfront.ne_define, this, hback.ne_define, nofun, nofun⟩

theorem Term.Spelled.ne_define {term : Term} {tokens : List Token} :
    term.Spelled tokens → ∀ token ∈ tokens, token.kind ≠ .define
  | .plain hatom => hatom.ne_define
  | .repeated hatom hkind => by
    have := hatom.ne_define
    rw [List.forall_mem_append, List.forall_mem_singleton]
    refine ⟨this, fun hdefine => ?_⟩
    cases hdefine
    cases hkind

theorem SequenceSpelled.ne_define {nested : Bool} {terms : List Term} {tokens : List Token} :
    SequenceSpelled nested terms tokens → ∀ token ∈ tokens, token.kind ≠ .define
  | .one hterm => hterm.ne_define
  | .more hterms hgap _ hlast => by
    have hinit := hterms.ne_define
    have hterm := hlast.ne_define
    rw [List.forall_mem_append, List.forall_mem_append]
    exact ⟨hinit, hgap.ne_define, hterm⟩

theorem AlternationSpelled.ne_define {nested : Bool} {alternatives : List (List Term)}
    {tokens : List Token} :
    AlternationSpelled nested alternatives tokens → ∀ token ∈ tokens, token.kind ≠ .define
  | .one hterms => hterms.ne_define
  | .more hinit hbefore hbar hafter hlast => by
    have hfirst := hinit.ne_define
    have hterms := hlast.ne_define
    simp only [List.forall_mem_append, List.forall_mem_cons]
    exact ⟨hfirst, hbefore.ne_define, by simp [hbar], hafter.ne_define, hterms⟩

end

/-- A rule defines its name, and nothing else. -/
theorem Rule.Spelled.definitions_eq (h : rule.Spelled tokens) :
    definitions tokens = [(rule.name, rule.span)] := by
  obtain @⟨name, span, define, front, inner, alternatives, hdefine, hfront, hinner⟩ := h
  have hrest : ∀ token ∈ front ++ inner, token.kind ≠ .define :=
    List.forall_mem_append.2 ⟨hfront.ne_define, hinner.ne_define⟩
  have hcons : define :: (front ++ inner) = [define] ++ (front ++ inner) := rfl
  rw [definitions, if_pos hdefine, hcons, definitions_append fun token htoken =>
    hrest token (List.mem_of_mem_head? htoken), definitions_eq_nil hrest]
  rfl

theorem Rule.Spelled.head?_ne_define (h : rule.Spelled tokens) :
    ∀ token, tokens.head? = some token → token.kind ≠ .define := by
  obtain ⟨-, -, -⟩ := h
  rintro token ⟨rfl⟩
  nofun

/-- **The rules that tokens spell are those that they define**, in order. -/
theorem RulesSpelled.definitions_eq (h : RulesSpelled rules tokens) :
    definitions tokens = rules.map fun rule => (rule.name, rule.span) := by
  induction h with
  | one hfront hrule =>
    rw [definitions_append hrule.head?_ne_define, definitions_eq_nil hfront.ne_define,
      hrule.definitions_eq]
    rfl
  | @more rules rule tokens gap last _ hgap hne hlast ih =>
    have hhead : ∀ token, (gap ++ last).head? = some token → token.kind ≠ .define := by
      obtain ⟨first, others, rfl⟩ := List.exists_cons_of_ne_nil hne
      rintro token ⟨rfl⟩
      exact hgap.ne_define _ List.mem_cons_self
    rw [definitions_append hhead, definitions_append hlast.head?_ne_define,
      definitions_eq_nil hgap.ne_define, hlast.definitions_eq, ih, List.map_append]
    rfl

theorem Spells.definitions_eq (h : Spells rules tokens) :
    definitions tokens = rules.map fun rule => (rule.name, rule.span) := by
  obtain ⟨front, back, hrules, hback, rfl⟩ := h
  have hhead : ∀ token, back.head? = some token → token.kind ≠ .define := fun token htoken =>
    hback.ne_define token (List.mem_of_mem_head? htoken)
  rw [definitions_append hhead, hrules.definitions_eq, definitions_eq_nil hback.ne_define,
    List.append_nil]

end Tree

/-! ## The grammar of a text -/

theorem filter_eq_singleton {α β : Type} [DecidableEq β] {f : α → β} {xs : List α} {x : α}
    (hdistinct : (xs.map f).Nodup) (hx : x ∈ xs) : xs.filter (f · = f x) = [x] := by
  obtain ⟨before, after, rfl⟩ := List.append_of_mem hx
  rw [List.map_append, List.map_cons, List.nodup_middle, List.nodup_cons,
    List.mem_append] at hdistinct
  have hother {y : α} {ys : List α} (hy : y ∈ ys) (hnot : f x ∉ ys.map f) : f y ≠ f x :=
    fun hsame => hnot (hsame ▸ List.mem_map_of_mem hy)
  have hbefore : before.filter (f · = f x) = [] := List.filter_eq_nil_iff.2 fun y hy => by
    simpa using hother hy fun hmem => hdistinct.1 (.inl hmem)
  have hafter : after.filter (f · = f x) = [] := List.filter_eq_nil_iff.2 fun y hy => by
    simpa using hother hy fun hmem => hdistinct.1 (.inr hmem)
  simp [hbefore, hafter]

namespace Grammar

variable {g : Grammar} {options : ParseOptions} {source : String} {tokens : List Token}

/-- The grammar of a text records what its tokens mention. -/
theorem mentionsOf_of_parse {rules : List Tree.Rule} (h : parse source options = .ok g)
    (htokens : tokenize source = .ok tokens) (hspells : Tree.Spells rules tokens) :
    g.symbols.mentionsOf (Tree.names rules) = firstMentions (tokens.filterMap Token.mention?) := by
  obtain ⟨-, hdistinct, -, -, -, rfl⟩ := (Tree.parse_eq_ok_iff htokens hspells).1 h
  rw [hspells.mentions_eq]
  exact (Tree.table_records hdistinct).entries

/-- The rules that are no helpers are those of the names in the text. -/
theorem isHelper_eq_false_iff {rules : List Tree.Rule} (h : parse source options = .ok g)
    (htokens : tokenize source = .ok tokens) (hspells : Tree.Spells rules tokens) {id : Nat}
    {rule : Rule} (hrule : g.rule? id = some rule) :
    rule.isHelper = false ↔ g.name id ∈ Tree.names rules := by
  constructor
  · intro hhelper
    obtain ⟨-, hdistinct, hdefined, -, -, rfl⟩ := (Tree.parse_eq_ok_iff htokens hspells).1 h
    rw [(Tree.rule?_compile hdistinct hdefined).2] at hrule
    obtain ⟨name, hname, hid⟩ := (Tree.table_records hdistinct).defined hrule hhelper
    rwa [name_of_name? hid]
  · intro hmem
    obtain ⟨token, htoken, hkind⟩ := hspells.mem_names_iff.1 hmem
    obtain ⟨other, span, alternatives, hfind, hother, -⟩ :=
      exists_find?_of_parse h htokens htoken hkind
    rw [(Tree.wellFormed_of_parse h).find?_name (lt_of_rule? hrule), Option.some_inj] at hfind
    rw [← hfind, hrule, Option.some_inj] at hother
    rw [hother]
    rfl

/-- The rules that are no helpers, by name and in order. -/
theorem map_fst_filter_namedRules (h : parse source options = .ok g)
    (htokens : tokenize source = .ok tokens) :
    (g.namedRules.filter (!·.2.isHelper)).map (·.1) =
      ((tokens.filterMap Token.mention?).map (·.1)).eraseDups := by
  obtain ⟨_, hsame, rules, hspells⟩ := Tree.exists_spells_of_parse h
  cases htokens.symm.trans hsame
  have hfilter : g.namedRules.filter (!·.2.isHelper) =
      g.namedRules.filter fun named => named.1 ∈ Tree.names rules := by
    refine List.filter_congr fun named hnamed => ?_
    obtain ⟨id, hrule, hname⟩ := mem_namedRules_iff.1 hnamed
    have hiff := isHelper_eq_false_iff h htokens hspells hrule
    rw [hname] at hiff
    rw [Bool.eq_iff_iff, Bool.not_eq_true', hiff, decide_eq_true_iff]
  calc (g.namedRules.filter (!·.2.isHelper)).map (·.1)
      = (g.namedRules.map (·.1)).filter (· ∈ Tree.names rules) := by
        rw [hfilter, List.filter_map]
        rfl
    _ = (g.symbols.mentionsOf (Tree.names rules)).map (·.1) := by
        rw [(Tree.wellFormed_of_parse h).map_fst_namedRules, SymbolTable.map_fst_mentionsOf]
    _ = ((tokens.filterMap Token.mention?).map (·.1)).eraseDups := by
        rw [mentionsOf_of_parse h htokens hspells, map_fst_firstMentions]

/-- The symbol table has the span of the first mention of a name. -/
theorem exists_mention?_of_parse (h : parse source options = .ok g)
    (htokens : tokenize source = .ok tokens) {id : Nat} {rule : Rule}
    (hrule : g.rule? id = some rule) (hhelper : rule.isHelper = false) :
    ∃ span, tokens.find? (·.kind = .name (g.name id)) = some ⟨.name (g.name id), span⟩ ∧
      g.symbols.mention? id = some span := by
  obtain ⟨_, hsame, rules, hspells⟩ := Tree.exists_spells_of_parse h
  cases htokens.symm.trans hsame
  have hwell := Tree.wellFormed_of_parse h
  have hmentioned := (isHelper_eq_false_iff h htokens hspells hrule).1 hhelper
  obtain ⟨span, hmention, hfind⟩ :=
    SymbolTable.find?_mentionsOf hwell.distinct (hwell.name?_eq (lt_of_rule? hrule)) hmentioned
  refine ⟨span, ?_, hmention⟩
  rw [mentionsOf_of_parse h htokens hspells, find?_firstMentions (· = g.name id),
    find?_mention?_eq_some_iff (p := (· = g.name id))] at hfind
  obtain ⟨-, before, after, hsplit, hbefore⟩ := hfind
  rw [List.find?_eq_some_iff_append]
  refine ⟨by simp, before, after, hsplit, fun token htoken => ?_⟩
  rw [Bool.not_eq_true', decide_eq_false_iff_not]
  exact fun hkind => absurd (hbefore token htoken _ hkind) (by simp)

/-- A rule that is no helper is defined where its name has the sign of definition behind it. -/
theorem exists_definition_of_parse (h : parse source options = .ok g)
    (htokens : tokenize source = .ok tokens) {id : Nat} {rule : Rule}
    (hrule : g.rule? id = some rule) (hhelper : rule.isHelper = false) :
    ∃ span, (definitions tokens).filter (·.1 = g.name id) = [(g.name id, span)] ∧
      rule.origin = .defined span := by
  obtain ⟨_, hsame, rules, hspells⟩ := Tree.exists_spells_of_parse h
  cases htokens.symm.trans hsame
  have hwell := Tree.wellFormed_of_parse h
  obtain ⟨-, hdistinct, hdefined, -⟩ := (Tree.parse_eq_ok_iff htokens hspells).1 h
  have hmentioned := (isHelper_eq_false_iff h htokens hspells hrule).1 hhelper
  obtain ⟨written, hwritten, hname⟩ := List.mem_map.1 (hdefined _ hmentioned)
  refine ⟨written.span, ?_, ?_⟩
  · rw [hspells.definitions_eq, List.filter_map, ← hname]
    exact congrArg _ (filter_eq_singleton hdistinct hwritten)
  · -- The rule that is written down has the same name, so it has the same identity.
    obtain ⟨other, bodies, hother, hbodies, -⟩ := compiled_of_parse h htokens hspells _ hwritten
    rw [rule?_asTable] at hbodies
    have hfind := hwell.find?_name (lt_of_rule? hbodies)
    rw [name_of_name? hother, hname, hwell.find?_name (lt_of_rule? hrule), Option.some_inj] at hfind
    rw [← hfind, hrule, Option.some_inj] at hbodies
    rw [hbodies]

/-- **Identities follow first mentions.** If a text has a grammar,

    - the rules that are no helpers are those of the names in the text, in the order in which the
      names are first mentioned,
    - the symbol table has the span of the first mention of each of them,
    - each of them is defined where the only token with its name stands that has the sign of
      definition behind it,
    - and the root has the first identity, which is that of the first definition, unless a root is
      asked for. -/
theorem identities_follow_mentions (h : parse source options = .ok g) :
    ∃ tokens, tokenize source = .ok tokens ∧
      (g.namedRules.filter (!·.2.isHelper)).map (·.1) =
        ((tokens.filterMap Token.mention?).map (·.1)).eraseDups ∧
      (∀ (id : Nat) (rule : Rule), g.rule? id = some rule → rule.isHelper = false →
        (∃ span, tokens.find? (·.kind = .name (g.name id)) = some ⟨.name (g.name id), span⟩ ∧
          g.symbols.mention? id = some span) ∧
        ∃ span, (definitions tokens).filter (·.1 = g.name id) = [(g.name id, span)] ∧
          rule.origin = .defined span) ∧
      (options.root = none → g.root = 0 ∧
        ∃ span, (definitions tokens).head? = some (g.name 0, span)) := by
  obtain ⟨tokens, htokens, rules, hspells⟩ := Tree.exists_spells_of_parse h
  refine ⟨tokens, htokens, map_fst_filter_namedRules h htokens, fun id rule hrule hhelper =>
    ⟨exists_mention?_of_parse h htokens hrule hhelper,
      exists_definition_of_parse h htokens hrule hhelper⟩, fun hroot =>
    ⟨(Tree.root_of_parse h).1 hroot, ?_⟩⟩
  obtain ⟨-, hdistinct, -, -, -, rfl⟩ := (Tree.parse_eq_ok_iff htokens hspells).1 h
  obtain ⟨rule, others, rfl⟩ := List.exists_cons_of_ne_nil hspells.ne_nil
  have hfirst := SymbolTable.name?_of_find? (Tree.find?_table_head hdistinct)
  rw [hspells.definitions_eq, name_of_name? hfirst]
  exact ⟨rule.span, rfl⟩

/-- Helpers stand between the names of a text, one of which is mentioned before it is defined. -/
theorem identities_follow_mentions_between_helpers :
    ∃ g tokens, parse "r ::= (\"a\" | y)* x\nx ::= y?\ny ::= \"c\"\n" = .ok g ∧
      tokenize "r ::= (\"a\" | y)* x\nx ::= y?\ny ::= \"c\"\n" = .ok tokens ∧
      (g.namedRules.filter (!·.2.isHelper)).map (·.1) =
        ((tokens.filterMap Token.mention?).map (·.1)).eraseDups ∧ g.root = 0 := by
  obtain ⟨g, hparse⟩ : ∃ g, parse "r ::= (\"a\" | y)* x\nx ::= y?\ny ::= \"c\"\n" = .ok g :=
    exists_parse_of_isOk (by decide +kernel)
  obtain ⟨tokens, htokens, hnames, -, hroot⟩ := identities_follow_mentions hparse
  exact ⟨g, tokens, hparse, htokens, hnames, (hroot rfl).1⟩

end Grammar

end Bnf

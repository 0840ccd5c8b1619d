import Bnf.CommandLine
import Mathlib.Data.List.Induction
import Mathlib.Data.List.Perm.Basic
import Mathlib.Tactic.SplitIfs

/-!
# Argument lists in groups

A flag and the argument that belongs to it ask for one thing, and so does a flag or a path by
itself. An argument list is read group by group, up to its end, to a call for help, or to the first
fault. What is asked for is told from the groups alone: the last flag for a form, the last options
file, the last root, and the one path. So groups that ask for different things may change places.

## Main definitions

- `ArgumentGroup` — a part of an argument list that asks for one thing
- `ArgumentGroup.Admissible` — groups that an argument list may consist of
- `Arguments.ofGroups` — what groups ask for
- `Arguments.Ends` — what may stand behind groups, and what the list means then
- `ArgumentGroup.Reordered` — groups in another order that asks for the same

## Main results

- `Arguments.read_groups` — groups are read one after the other
- `Arguments.read_eq_iff` — every argument list consists of groups and an ending, which tell its
  meaning
- `CommandLine.run_reordered` — the command does the same for groups in another order
-/

namespace Bnf

/-- A part of an argument list that asks for one thing. -/
inductive ArgumentGroup where
  | flat
  | raw
  | config (file : String)
  | root (name : String)
  | path (file : String)
deriving DecidableEq

/-- Whether an argument is a path, unless it belongs to the one before. -/
def IsPath (argument : String) : Prop :=
  argument.toList.take 2 ≠ ['-', '-'] ∧ argument ≠ "-h"

namespace ArgumentGroup

/-- The arguments of a group. Those that belong to a flag may be any. -/
def words : ArgumentGroup → List String
  | flat => ["--flat"]
  | raw => ["--raw"]
  | config file => ["--config", file]
  | root name => ["--root", name]
  | path file => [file]

def form? : ArgumentGroup → Option OutputForm
  | flat => some .flat
  | raw => some .raw
  | _ => none

def config? : ArgumentGroup → Option String
  | config file => some file
  | _ => none

def root? : ArgumentGroup → Option String
  | root name => some name
  | _ => none

def path? : ArgumentGroup → Option String
  | path file => some file
  | _ => none

/-- **Groups that an argument list may consist of**: at most one path, which does not look like a
    flag. -/
structure Admissible (groups : List ArgumentGroup) : Prop where
  isPath : ∀ argument ∈ groups.filterMap path?, IsPath argument
  single : (groups.filterMap path?).length ≤ 1

/-- Of groups that are admissible the first ones are. -/
theorem Admissible.of_append {groups others : List ArgumentGroup}
    (h : Admissible (groups ++ others)) : Admissible groups := by
  obtain ⟨hpath, hsingle⟩ := h
  rw [List.filterMap_append] at hpath hsingle
  rw [List.length_append] at hsingle
  exact ⟨fun argument hmem => hpath argument (List.mem_append_left _ hmem), by omega⟩

/-- A group without a path can be added. -/
theorem Admissible.concat {groups : List ArgumentGroup} (h : Admissible groups)
    (group : ArgumentGroup) (hgroup : group.path? = none) : Admissible (groups ++ [group]) := by
  have hsame : (groups ++ [group]).filterMap path? = groups.filterMap path? := by
    rw [List.filterMap_append, List.filterMap_cons_none hgroup, List.filterMap_nil, List.append_nil]
  exact ⟨hsame ▸ h.isPath, hsame ▸ h.single⟩

end ArgumentGroup

open ArgumentGroup

namespace Arguments

variable {groups others : List ArgumentGroup} {group : ArgumentGroup} {rest : List String}

/-- **What groups ask for.** The last flag for a form counts, the last options file and the last
    root. -/
def ofGroups (groups : List ArgumentGroup) : Arguments where
  form := (groups.filterMap form?).getLast?.getD .grammar
  config := (groups.filterMap config?).getLast?
  root := (groups.filterMap root?).getLast?
  path := (groups.filterMap path?).getLast?

/-- What is asked for by one more group. -/
def ask (found : Arguments) : ArgumentGroup → Arguments
  | .flat => { found with form := .flat }
  | .raw => { found with form := .raw }
  | .config file => { found with config := some file }
  | .root name => { found with root := some name }
  | .path file => { found with path := some file }

/-- Groups are asked for one after the other. -/
theorem ofGroups_concat (groups : List ArgumentGroup) (group : ArgumentGroup) :
    ofGroups (groups ++ [group]) = (ofGroups groups).ask group := by
  cases group <;> simp [ofGroups, ask, form?, config?, root?, path?, List.filterMap_append]

/-- There is no path if no group has one. -/
theorem path_ofGroups_eq_none_iff :
    (ofGroups groups).path = none ↔ groups.filterMap path? = [] :=
  List.getLast?_eq_none_iff

/-! ## Reading group by group -/

/-- A path is none of the flags, each of which starts with two hyphens or is the short call for
    help. -/
theorem ofString_of_isPath {argument : String} (h : IsPath argument) :
    Argument.ofString argument = .path argument := by
  have hne (flag : String) (hflag : flag.toList.take 2 = ['-', '-']) : argument ≠ flag := by
    rintro rfl
    exact h.1 hflag
  simp [Argument.ofString, hne "--flat" rfl, hne "--raw" rfl, hne "--config" rfl, hne "--root" rfl,
    hne "--help" rfl, h.1, h.2]

theorem ofString_of_unknown {flag : String} (hhyphens : flag.toList.take 2 = ['-', '-'])
    (hunknown : flag ∉ ["--flat", "--raw", "--config", "--root", "--help"]) :
    Argument.ofString flag = .unknown flag := by
  have hshort : flag ≠ "-h" := by
    rintro rfl
    exact absurd hhyphens (by decide)
  simp_all [Argument.ofString]

/-- A second path is refused. -/
theorem read_path {found : Arguments} {argument : String} (h : IsPath argument) :
    Arguments.read found (argument :: rest) =
      if found.path.isSome then .refuse .secondPath
      else Arguments.read { found with path := some argument } rest := by
  rw [Arguments.read.eq_def]
  simp only [ofString_of_isPath h]

/-- One group is read. -/
theorem read_words {found : Arguments}
    (hpath : ∀ argument, group.path? = some argument → IsPath argument ∧ found.path = none) :
    Arguments.read found (group.words ++ rest) = Arguments.read (found.ask group) rest := by
  cases group with
  | flat | raw | config | root => rfl
  | path argument =>
    obtain ⟨hargument, hnone⟩ := hpath argument rfl
    rw [words, List.singleton_append, read_path hargument, hnone]
    rfl

/-- **Groups are read one after the other.** -/
theorem read_groups (h : Admissible groups) (rest : List String) :
    Arguments.read {} (groups.flatMap words ++ rest) = Arguments.read (ofGroups groups) rest := by
  induction groups using List.reverseRecOn generalizing rest with
  | nil => rfl
  | append_singleton groups group ih =>
    rw [List.flatMap_append, List.append_assoc, ih h.of_append, List.flatMap_singleton,
      ofGroups_concat]
    refine read_words fun argument hargument => ?_
    have hsplit : (groups ++ [group]).filterMap path? = groups.filterMap path? ++ [argument] := by
      rw [List.filterMap_append, List.filterMap_cons_some hargument, List.filterMap_nil]
    obtain ⟨hpath, hsingle⟩ := h
    rw [hsplit] at hpath hsingle
    rw [List.length_append, List.length_singleton] at hsingle
    exact ⟨hpath argument (by simp),
      path_ofGroups_eq_none_iff.2 (List.eq_nil_of_length_eq_zero (by omega))⟩

/-! ## The end of a list -/

/-- **What stands behind groups**, and what the list means then: nothing, a call for help with
    anything behind it, or a fault. -/
inductive Ends (groups : List ArgumentGroup) : List String → Request → Prop
  | nil : Ends groups [] (.write (ofGroups groups))
  | help {flag : String} (rest : List String) :
    flag ∈ ["-h", "--help"] → Ends groups (flag :: rest) .help
  | missingConfigPath : Ends groups ["--config"] (.refuse .missingConfigPath)
  | missingRootName : Ends groups ["--root"] (.refuse .missingRootName)
  | unknownFlag {flag : String} (rest : List String) : flag.toList.take 2 = ['-', '-'] →
    flag ∉ ["--flat", "--raw", "--config", "--root", "--help"] →
    Ends groups (flag :: rest) (.refuse (.unknownFlag flag))
  | secondPath {file : String} (rest : List String) : IsPath file →
    groups.filterMap path? ≠ [] → Ends groups (file :: rest) (.refuse .secondPath)

/-- What ends the reading is what is read, whatever was asked for before. -/
theorem Ends.read {request : Request} (h : Ends groups rest request) :
    Arguments.read (ofGroups groups) rest = request := by
  cases h with
  | nil | missingConfigPath | missingRootName => rfl
  | help rest hflag =>
    obtain rfl | rfl : _ = "-h" ∨ _ = "--help" := by simpa using hflag
    all_goals rfl
  | unknownFlag rest hhyphens hunknown =>
    rw [Arguments.read.eq_def]
    simp only [ofString_of_unknown hhyphens hunknown]
  | secondPath rest hpath hsecond =>
    have hsome : (ofGroups groups).path.isSome = true :=
      Option.isSome_iff_ne_none.2 (mt path_ofGroups_eq_none_iff.1 hsecond)
    rw [read_path hpath, if_pos hsome]

end Arguments

/-! ## Groups in another order -/

/-- **The same groups in another order**, in which those that ask for a form, for options and for a
    root each have the order that they had. -/
structure ArgumentGroup.Reordered (groups others : List ArgumentGroup) : Prop where
  perm : groups.Perm others
  forms : groups.filterMap form? = others.filterMap form?
  configs : groups.filterMap config? = others.filterMap config?
  roots : groups.filterMap root? = others.filterMap root?

namespace ArgumentGroup

variable {groups others : List ArgumentGroup}

/-- The order of paths is kept, of which there is one at most. -/
theorem Reordered.paths (h : Reordered groups others) (hgroups : Admissible groups) :
    groups.filterMap path? = others.filterMap path? := by
  have hperm := h.perm.filterMap path?
  have hsingle := hgroups.single
  match hpaths : groups.filterMap path? with
  | [] =>
    rw [hpaths] at hperm
    exact hperm.nil_eq
  | [file] =>
    rw [hpaths] at hperm
    exact List.singleton_perm.1 hperm
  | _ :: _ :: _ => simp [hpaths] at hsingle

theorem Reordered.admissible (h : Reordered groups others) (hgroups : Admissible groups) :
    Admissible others :=
  ⟨h.paths hgroups ▸ hgroups.isPath, h.paths hgroups ▸ hgroups.single⟩

/-- **What is asked for does not depend on the order** of groups, if those of one kind keep
    theirs. -/
theorem Reordered.ofGroups_eq (h : Reordered groups others) (hgroups : Admissible groups) :
    Arguments.ofGroups groups = Arguments.ofGroups others := by
  rw [Arguments.ofGroups, h.forms, h.configs, h.roots, h.paths hgroups]
  rfl

end ArgumentGroup

namespace CommandLine

variable {groups others : List ArgumentGroup}

/-- So the command does what its groups ask for. -/
theorem run_groups (env : Environment) (h : Admissible groups) :
    run env (groups.flatMap words) = perform env (.ofGroups groups) := by
  have hread := Arguments.read_groups h []
  rw [List.append_nil] at hread
  rw [run, hread]
  rfl

/-- **The order of the arguments does not matter**, but for that of the groups that ask for the same
    thing: the command has the same exit code and writes the same. -/
theorem run_reordered (env : Environment) (hgroups : Admissible groups)
    (h : Reordered groups others) :
    run env (others.flatMap words) = run env (groups.flatMap words) := by
  rw [run_groups env hgroups, run_groups env (h.admissible hgroups), h.ofGroups_eq hgroups]

/-- An options file, a path and names of rules that look like flags. -/
theorem run_reordered_beside_values_like_flags :
    ∃ env : Environment, env.file "--flat" = .ok "\x7b\"maxNesting\":1\x7d" ∧
      env.file "-g" = .ok "a ::= --raw\n--raw ::= (\"b\")" ∧
      Admissible [.flat, .config "--flat", .root "a", .path "-g", .raw, .root "--raw"] ∧
      Reordered [.flat, .config "--flat", .root "a", .path "-g", .raw, .root "--raw"]
        [.root "a", .flat, .root "--raw", .path "-g", .config "--flat", .raw] ∧
      run env ["--root", "a", "--flat", "--root", "--raw", "-g", "--config", "--flat", "--raw"] =
        run env ["--flat", "--config", "--flat", "--root", "a", "-g", "--raw", "--root", "--raw"] ∧
      (run env ["--flat", "--config", "--flat", "--root", "a", "-g", "--raw", "--root",
        "--raw"]).code = 0 := by
  let env : Environment := {
    file := fun file =>
      if file = "--flat" then .ok "\x7b\"maxNesting\":1\x7d"
      else if file = "-g" then .ok "a ::= --raw\n--raw ::= (\"b\")"
      else .error .notFound
    input := .error .notText
    refusal := fun _ => "expected an object"
    level := some .warn }
  have hgroups : Admissible
      [.flat, .config "--flat", .root "a", .path "-g", .raw, .root "--raw"] :=
    ⟨by simp [path?, IsPath], by decide⟩
  have horder : Reordered [.flat, .config "--flat", .root "a", .path "-g", .raw, .root "--raw"]
      [.root "a", .flat, .root "--raw", .path "-g", .config "--flat", .raw] :=
    ⟨by decide, rfl, rfl, rfl⟩
  exact ⟨env, rfl, rfl, hgroups, horder, run_reordered env hgroups horder, by decide +kernel⟩

end CommandLine

end Bnf

import Rsleigh.Agent.Catalog
import Rsleigh.Agent.Evidence
import Rsleigh.Lib.ShellWords

namespace Rsleigh.Agent

open ShellWords

-- agent/investigation.rs.
inductive ShellKind where
  | posix
  | powerShell
  deriving DecidableEq

def knownFlag (arg : String) : Bool :=
  ["--xrefs","--ssa-json"].contains arg || operations.any fun op => (op.flag arg).isSome

def isBare (arg : String) : Bool :=
  knownFlag arg || (!arg.toList.isEmpty && arg.toList.all Char.isDigit) ||
    match arg.toList with
    | '0' :: 'x' :: digits => !digits.isEmpty && digits.all isHexDigit
    | _ => false

-- agent.rs: `value.replace('\'', "'\\''")` between quotes.
def shellQuote (value : String) : List Char :=
  '\'' :: (value.toList.flatMap fun c => if c = '\'' then ['\'','\\','\'','\''] else [c]) ++ ['\'']

def powerShellQuote (value : String) : List Char :=
  '\'' :: (value.toList.flatMap fun c =>
    if ['\'','\u2018','\u2019','\u201A','\u201B'].contains c then [c,c] else [c]) ++ ['\'']

def renderArgument (shell : ShellKind) (arg : String) : List Char :=
  if isBare arg then arg.toList
  else
    match shell with
    | .posix => shellQuote arg
    | .powerShell => powerShellQuote arg

def renderCommand (argv : List String) (shell : ShellKind) : String :=
  String.ofList (argv.foldl (fun command arg => command ++ ' ' :: renderArgument shell arg) "rsleigh".toList)

theorem renderCommand_spaced (argv : List String) (shell : ShellKind) :
    (renderCommand argv shell).toList = "rsleigh".toList ++ spaced (argv.map (renderArgument shell)) := by
  unfold renderCommand spaced
  rw [String.toList_ofList,List.flatMap_map]
  generalize "rsleigh".toList = command
  induction argv generalizing command with
  | nil => simp
  | cons arg rest ih =>
    rw [List.foldl_cons,ih,List.flatMap_cons,List.append_assoc]

theorem flags_plain : ∀ op ∈ operations, ∀ flag ∈ op.allFlags,
    flag.name.toList ≠ [] ∧ flag.name.toList.all isPlain = true := by
  decide +kernel

theorem isPlain_hexDigit {c : Char} (isHex : isHexDigit c = true) : isPlain c = true := by
  simp only [isHexDigit,isLowerHex,Bool.or_eq_true,Bool.and_eq_true,decide_eq_true_eq,Char.le_def] at isHex
  simp only [isPlain,Char.isAlphanum,Char.isAlpha,Char.isUpper,Char.isLower,Bool.or_eq_true,Bool.and_eq_true,
    decide_eq_true_eq,ge_iff_le]
  simp only [UInt32.le_iff_toNat_le] at isHex ⊢
  rcases isHex with (isDigit | lower) | upper
  · exact Or.inl (Or.inr isDigit)
  · exact Or.inl (Or.inl (Or.inr ⟨lower.1,lower.2.trans (by decide)⟩))
  · exact Or.inl (Or.inl (Or.inl ⟨upper.1,upper.2.trans (by decide)⟩))

theorem isBare_plain {arg : String} (bare : isBare arg = true) : arg.toList ≠ [] ∧ ∀ c ∈ arg.toList, isPlain c = true := by
  unfold isBare at bare
  rcases Bool.or_eq_true_iff.mp bare with bare | isHex
  · rcases Bool.or_eq_true_iff.mp bare with known | isNumber
    · unfold knownFlag at known
      rcases Bool.or_eq_true_iff.mp known with legacy | inCatalog
      · have isLegacy : arg = "--xrefs" ∨ arg = "--ssa-json" := by simpa using legacy
        rcases isLegacy with rfl | rfl <;> exact ⟨by decide +kernel,List.all_eq_true.mp (by decide +kernel)⟩
      · obtain ⟨op,isOp,isFlag⟩ := List.any_eq_true.mp inCatalog
        obtain ⟨flag,found⟩ := Option.isSome_iff_exists.mp isFlag
        obtain ⟨nonempty,plain⟩ := flags_plain op isOp flag (List.mem_of_find?_eq_some found)
        have isName : flag.name = arg := by simpa using List.find?_some found
        rw [isName] at nonempty plain
        exact ⟨nonempty,List.all_eq_true.mp plain⟩
    · obtain ⟨nonempty,digits⟩ := Bool.and_eq_true_iff.mp isNumber
      refine ⟨by simpa using nonempty,fun c member => ?_⟩
      have isDigit := List.all_eq_true.mp digits c member
      exact isPlain_hexDigit (by simp [isHexDigit,isLowerHex,isDigit])
  · split at isHex
    · rename_i digits isText
      obtain ⟨nonempty,hex⟩ := Bool.and_eq_true_iff.mp isHex
      rw [isText]
      refine ⟨List.cons_ne_nil _ _,fun c member => ?_⟩
      rcases List.mem_cons.mp member with rfl | member
      · rfl
      rcases List.mem_cons.mp member with rfl | member
      · rfl
      exact isPlain_hexDigit (List.all_eq_true.mp hex c member)
    · cases isHex

theorem posix_renders (arg : String) : Posix.shell.Renders (renderArgument .posix arg) arg := by
  unfold renderArgument
  by_cases bare : isBare arg = true
  · obtain ⟨nonempty,plain⟩ := isBare_plain bare
    rw [if_pos bare]
    exact ⟨_,Posix.reads_bare nonempty plain,plainWord_bare fun c member => isPlain_notMem (plain c member) _ rfl⟩
  · rw [if_neg bare]
    exact ⟨_,Posix.reads_quoted arg.toList,plainWord_quoted _ arg⟩

theorem powerShell_renders (arg : String) : PowerShell.shell.Renders (renderArgument .powerShell arg) arg := by
  unfold renderArgument
  by_cases bare : isBare arg = true
  · obtain ⟨nonempty,plain⟩ := isBare_plain bare
    rw [if_pos bare]
    exact ⟨_,PowerShell.reads_bare nonempty plain,plainWord_bare fun c member => isPlain_notMem (plain c member) _ rfl⟩
  · rw [if_neg bare]
    exact ⟨_,PowerShell.reads_quoted arg.toList,plainWord_quoted _ arg⟩

-- Both shells read the arguments of a rendered command as they are, and expand nothing.
theorem renderCommand_words (argv : List String) :
    Posix.shell.words (renderCommand argv .posix).toList = some ("rsleigh" :: argv) ∧
      PowerShell.shell.words (renderCommand argv .powerShell).toList = some ("rsleigh" :: argv) := by
  have plain : ∀ c ∈ "rsleigh".toList, isPlain c = true := List.all_eq_true.mp (by decide +kernel)
  rw [renderCommand_spaced,renderCommand_spaced]
  constructor
  · have command : Posix.shell.Renders "rsleigh".toList "rsleigh" :=
      ⟨_,Posix.reads_bare (by decide +kernel) plain,plainWord_bare fun c member => isPlain_notMem (plain c member) _ rfl⟩
    exact words_command command posix_renders argv
  · have command : PowerShell.shell.Renders "rsleigh".toList "rsleigh" :=
      ⟨_,PowerShell.reads_bare (by decide +kernel) plain,plainWord_bare fun c member => isPlain_notMem (plain c member) _ rfl⟩
    exact words_command command powerShell_renders argv

end Rsleigh.Agent

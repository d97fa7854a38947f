import Mathlib
import Rsleigh.Agent.SliceRecord
import Rsleigh.Investigation.Update

namespace Rsleigh.Investigation

open Agent Json

-- A recorded parameter is one that a rerun can be suggested with.
def Accepted (key : String) (value : Json) : Prop :=
  (parameterArgv key value).isSome = true

theorem flag_of_key : ∀ flag ∈ sliceOperation.allFlags, flag.role = .semantic → flag.name ≠ "--ssa-slice" →
    parameterKey flag.name ≠ "ssa-slice" ∧
      (sliceOperation.flags.find? fun other => other.name = "--" ++ parameterKey flag.name ∧ other.role = .semantic) =
        some flag := by
  decide

theorem flag_once : ∀ flag ∈ sliceOperation.allFlags, flag.role = .semantic → flag.repeatable = false := by
  decide

theorem flag_kinds : ∀ flag ∈ sliceOperation.allFlags, flag.role = .semantic →
    (flag.name = "--ssa-slice" ∧ flag.kind = .function) ∨ (flag.name ≠ "--ssa-slice" ∧ flag.kind = .count) ∨
      (flag.name ≠ "--ssa-slice" ∧ flag.kind = .switch) ∨
      (flag.name ≠ "--ssa-slice" ∧ flag.kind = .address ∧
        (flag.name = "--call-site" ∨ flag.name = "--condition" ∨ flag.name = "--at")) := by
  decide

theorem accepted_root {text : String} (address : isAddress text = true) :
    Accepted (parameterKey "--ssa-slice") (.text text) := by
  have key : parameterKey "--ssa-slice" = "ssa-slice" := by decide
  simp [Accepted,parameterArgv,key,address]

section Flags

variable {flag : Flag} (member : flag ∈ sliceOperation.allFlags) (semantic : flag.role = .semantic)
  (notRoot : flag.name ≠ "--ssa-slice")

include member semantic notRoot

theorem accepted_count (isCount : flag.kind = .count) {count : Nat} (small : count < 2 ^ 64) :
    Accepted (parameterKey flag.name) (.natural count) := by
  obtain ⟨notSlice,found⟩ := flag_of_key flag member semantic notRoot
  unfold Accepted parameterArgv
  rw [if_neg notSlice]
  simp only [found,isCount]
  simp [asNatural,natural,small]
  omega

theorem accepted_switch (isSwitch : flag.kind = .switch) : Accepted (parameterKey flag.name) (.bool true) := by
  obtain ⟨notSlice,found⟩ := flag_of_key flag member semantic notRoot
  unfold Accepted parameterArgv
  rw [if_neg notSlice]
  simp only [found,isSwitch]
  rfl

theorem accepted_address (isAddressKind : flag.kind = .address) {text : String} (address : isAddress text = true) :
    Accepted (parameterKey flag.name) (.text text) := by
  obtain ⟨notSlice,found⟩ := flag_of_key flag member semantic notRoot
  unfold Accepted parameterArgv
  rw [if_neg notSlice]
  simp only [found,isAddressKind]
  simp [address]

end Flags

theorem parseNumber_small {text : String} {number : Nat} (parsed : parseNumber text = some number) :
    number < 2 ^ 64 := by
  unfold parseNumber fromStrRadix at parsed
  by_cases empty : (stripPlus text.toList).isEmpty = true
  · rw [if_pos empty] at parsed
    cases parsed
  · rw [if_neg empty] at parsed
    simpa using (Option.filter_eq_some_iff.mp parsed).2

theorem flag_found {op : Operation} {arg : String} {flag : Flag} (found : op.flag arg = some flag) :
    flag ∈ op.allFlags ∧ flag.name = arg :=
  ⟨List.mem_of_find?_eq_some found,by simpa using List.find?_some found⟩

theorem recorded_accepted {tool : Tool} {files : Files} {args positionals : List String} {selector : Selector}
    {resolved : String} (valid : validate sliceOperation args 2 = .ok positionals)
    (parsed : parseSelector args = .ok selector) (address : isAddress resolved = true) {arg : String}
    {after : List String} {flag : Flag} (suffix : arg :: after <:+ args) (found : sliceOperation.flag arg = some flag)
    (semantic : flag.role = .semantic) :
    Accepted (parameterKey arg)
      (if flag.takesValue then normalizeParameter tool files (some resolved) flag.kind (after.head?.getD "") else .bool true) := by
  obtain ⟨member,rfl⟩ := flag_found found
  rcases flag_kinds flag member semantic with ⟨isRoot,kind⟩ | ⟨notRoot,kind⟩ | ⟨notRoot,kind⟩ | ⟨notRoot,kind,named⟩
  · simp only [Flag.takesValue,kind,isRoot]
    exact accepted_root address
  · obtain ⟨given,isGiven,parses⟩ := checkCounts_parses kind (flag_once flag member semantic) (validate_counts valid)
      member
    obtain ⟨text,rfl,isNext⟩ := valueArg_at suffix isGiven
    obtain ⟨number,isNumber⟩ := parses text rfl
    simp only [Flag.takesValue,kind,isNext,normalizeParameter,Option.getD_some,isNumber]
    exact accepted_count member semantic notRoot kind (parseNumber_small isNumber)
  · simp only [Flag.takesValue,kind]
    exact accepted_switch member semantic notRoot kind
  · obtain ⟨given,isGiven,parses⟩ := selector_addresses parsed named
    obtain ⟨text,rfl,isNext⟩ := valueArg_at suffix isGiven
    obtain ⟨number,isNumber⟩ := parses text rfl
    simp only [Flag.takesValue,kind,isNext,normalizeParameter,Option.getD_some,isNumber]
    exact accepted_address member semantic notRoot kind (isAddress_addressText number)

theorem argv_isSome {fields : List (String × Json)} (accepted : ∀ entry ∈ fields, Accepted entry.1 entry.2) :
    (sliceParameterArgv (.object fields)).isSome = true := by
  have all : (fields.mapM fun entry => parameterArgv entry.1 entry.2).isSome = true := by
    induction fields with
    | nil => rfl
    | cons entry rest ih =>
      obtain ⟨argv,isArgv⟩ := Option.isSome_iff_exists.mp (accepted entry List.mem_cons_self)
      obtain ⟨later,isLater⟩ := Option.isSome_iff_exists.mp
        (ih fun other member => accepted other (List.mem_cons_of_mem _ member))
      rw [List.mapM_cons]
      simp only [isArgv,isLater]
      rfl
  unfold sliceParameterArgv
  simpa using all

theorem reason_accepted (reason : Reason) : isReason reason.asText = true := by
  cases reason with
  | memory boundary => cases boundary <;> decide
  | _ => decide

-- A slice record, as the boundaries of its nodes are read from it.
structure SliceRecord (record : Json) where
  address : Nat
  nodes : List SliceNode
  rootFunction : (sliceView record).rootFunction = .text (addressText address)
  nodesRead : (sliceView record).nodes = nodes.map SliceNode.toJson
  argv : (sliceParameterArgv (sliceView record).parameters).isSome = true

theorem recorded_slice {tool : Tool} {record : Json} (recorded : Recorded tool record)
    (isSlice : record.get "kind" = .text "ssa-slice") : Nonempty (SliceRecord record) := by
  cases recorded with
  | other _ notSlice =>
    rw [build_kind] at isSlice
    exact absurd (Json.text.inj isSlice) notSlice
  | @slice files _ run args _ _ _ given _ _ valid ran =>
    obtain ⟨⟨payload⟩,selector,parsed⟩ := sliceRun_payload ran
    refine ⟨⟨payload.address,payload.nodes,?_,?_,?_⟩⟩
    · simp only [sliceView,build_payload]
      exact payload.functionAddress
    · simp only [SliceView.nodes,sliceView,build_payload]
      exact payload.nodesRead
    · simp only [sliceView,build_parameters,parameters]
      refine argv_isSome (parametersFrom_keeps rfl ?_ (List.drop_suffix _ _) (by simp))
      intro arg after flag suffix found semantic
      obtain ⟨member,_⟩ := flag_found found
      have resolved : resolvedFunction given = some (addressText payload.address) := by
        simp [resolvedFunction,payload.noFunction,payload.functionAddress]
      rw [resolved]
      exact ⟨flag_once flag member semantic,recorded_accepted valid parsed (isAddress_addressText _)
        suffix found semantic⟩

end Rsleigh.Investigation

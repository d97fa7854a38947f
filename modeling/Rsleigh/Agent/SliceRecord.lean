import Mathlib
import Rsleigh.Lib.Fallible
import Rsleigh.Agent.SsaSlice

namespace Rsleigh.Agent

open Json

theorem mem_insertField {key : String} {value : Json} {entry : String × Json} {fields : List (String × Json)}
    (member : entry ∈ insertField key value fields) : entry = (key, value) ∨ entry ∈ fields := by
  induction fields with
  | nil =>
    exact Or.inl (List.mem_singleton.mp member)
  | cons head rest ih =>
    obtain ⟨other,kept⟩ := head
    unfold insertField at member
    split at member
    · exact List.mem_cons.mp member
    · split at member
      · rcases List.mem_cons.mp member with same | later
        · exact Or.inl same
        · exact Or.inr (List.mem_cons_of_mem _ later)
      · rcases List.mem_cons.mp member with same | later
        · exact Or.inr (same ▸ List.mem_cons_self)
        · rcases ih later with new | old
          · exact Or.inl new
          · exact Or.inr (List.mem_cons_of_mem _ old)

theorem following_of_suffix {arg : String} {after args : List String} (suffix : arg :: after <:+ args) :
    after.head? ∈ following arg args := by
  induction args with
  | nil => exact absurd (List.suffix_nil.mp suffix) (by simp)
  | cons head rest ih =>
    rcases List.suffix_cons_iff.mp suffix with whole | later
    · obtain ⟨same,rfl⟩ := List.cons.inj whole
      simp [following,same]
    · have found := ih later
      by_cases isHead : head = arg <;> simp [following,isHead,found]

theorem valueArg_some {args : List String} {flag text : String} (given : valueArg args flag = .ok (some text)) :
    following flag args = [some text] := by
  unfold valueArg at given
  split at given
  · cases given
  · rename_i next found
    cases next with
    | none => cases given
    | some value =>
      unfold givenValue at given
      by_cases isOther : isFlag value
      · simp [isOther,Except.map] at given
      · simp only [isOther,Except.map,Bool.false_eq_true,if_false,Except.ok.injEq,Option.some.injEq] at given
        rw [found,given]
  · cases given

theorem valueArg_at {args after : List String} {flag : String} {given : Option String}
    (suffix : flag :: after <:+ args) (ok : valueArg args flag = .ok given) : ∃ text, given = some text ∧
      after.head? = some text := by
  have found := following_of_suffix suffix
  cases given with
  | none =>
    unfold valueArg at ok
    split at ok
    · rename_i absent
      simp [absent] at found
    · rename_i next _
      cases once : givenValue flag next <;> simp [once,Except.map] at ok
    · cases ok
  | some text =>
    rw [valueArg_some ok] at found
    exact ⟨text,rfl,List.mem_singleton.mp found⟩

theorem numberArg_parses {args : List String} {flag text : String} {default number : Nat}
    (given : valueArg args flag = .ok (some text)) (ok : numberArg args flag default = .ok number) :
    parseNumber text = some number := by
  unfold numberArg at ok
  rw [given] at ok
  simp only [bind,Except.bind] at ok
  split at ok
  · simp_all
  · cases ok

theorem checkCounts_parses {args : List String} {flag : Flag} (isCount : flag.kind = .count)
    (once : flag.repeatable = false) :
    ∀ {flags : List Flag}, checkCounts args flags = .ok () → flag ∈ flags →
      ∃ given, valueArg args flag.name = .ok given ∧ ∀ text, given = some text →
        ∃ number, parseNumber text = some number := by
  intro flags checked member
  induction flags with
  | nil => cases member
  | cons head rest ih =>
    unfold checkCounts at checked
    rcases List.mem_cons.mp member with rfl | later
    · rw [if_pos ⟨isCount,once⟩] at checked
      obtain ⟨given,isGiven,checked⟩ := Fallible.bind_ok.mp checked
      refine ⟨given,isGiven,?_⟩
      intro text isText
      subst isText
      simp only [Option.isSome_some,if_true] at checked
      obtain ⟨number,isNumber,_⟩ := Fallible.bind_ok.mp checked
      exact ⟨number,numberArg_parses isGiven isNumber⟩
    · refine ih ?_ later
      split at checked
      · obtain ⟨given,_,checked⟩ := Fallible.bind_ok.mp checked
        split at checked
        · obtain ⟨_,_,checked⟩ := Fallible.bind_ok.mp checked
          exact checked
        · exact checked
      · exact checked

theorem validate_counts {op : Operation} {args positionals : List String} {start : Nat}
    (ok : validate op args start = .ok positionals) : checkCounts args op.allFlags = .ok () := by
  unfold validate at ok
  simp only [bind,Except.bind] at ok
  cases first : validateFrom op args false (args.drop start) with
  | error failure => simp [first] at ok
  | ok found =>
    cases counts : checkCounts args op.allFlags with
    | error failure => simp [first,counts] at ok
    | ok done => rfl

theorem messageArg_ok {args : List String} {flag : String} {given : Option String} :
    messageArg args flag = .ok given ↔ valueArg args flag = .ok given := by
  unfold messageArg
  cases valueArg args flag <;> simp [Except.mapError]

theorem selectorAddress_ok {text : String} {address : Nat} (ok : selectorAddress text = .ok address) :
    parseAddress text = some address := by
  unfold selectorAddress at ok
  split at ok
  · simp_all
  · split at ok <;> cases ok

theorem selectorAddress_map {text : String} {encode : Nat → Selector} {selector : Selector}
    (ok : (selectorAddress text).map encode = .ok selector) : ∃ address, parseAddress text = some address := by
  cases found : selectorAddress text with
  | error failure => simp [found,Except.map] at ok
  | ok address => exact ⟨address,selectorAddress_ok found⟩

-- A root is one of the four kinds, and the addresses that it is given by have been read.
theorem selectRoot_addresses {var call argument condition site : Option String} {returns : Nat} {selector : Selector}
    (ok : selectRoot var call argument condition site returns = .ok selector) {given : Option String} {text : String}
    (isAddress : given = call ∨ given = condition ∨ given = site) (isGiven : given = some text) :
    ∃ address, parseAddress text = some address := by
  unfold selectRoot at ok
  split at ok
  · cases ok
  rename_i one
  split at ok
  · cases ok
  split at ok
  · cases ok
  rename_i atReturn
  split at ok
  · rename_i var _ _ _
    subst isGiven
    have isOne : call.isSome.toNat + condition.isSome.toNat + returns = 0 := by
      simp only [Option.isSome_some,Bool.toNat_true] at one
      omega
    rcases isAddress with isCall | isCondition | isSite
    · simp [← isCall] at isOne
    · simp [← isCondition] at isOne
    · simp [← isSite] at atReturn
      omega
  · rename_i call _ _
    subst isGiven
    have isOne : condition.isSome.toNat + returns = 0 := by
      simp only [Option.isSome_some,Option.isSome_none,Bool.toNat_true,Bool.toNat_false] at one
      omega
    rcases isAddress with isCall | isCondition | isSite
    · cases isCall
      cases found : selectorAddress text with
      | error failure => simp [found,Except.bind] at ok
      | ok address => exact ⟨address,selectorAddress_ok found⟩
    · simp [← isCondition] at isOne
    · simp [← isSite] at atReturn
      omega
  · rename_i condition _
    subst isGiven
    rcases isAddress with isCall | isCondition | isSite
    · cases isCall
    · cases isCondition
      exact selectorAddress_map ok
    · simp [← isSite] at atReturn one
      omega
  · rename_i site
    subst isGiven
    rcases isAddress with isCall | isCondition | isSite
    · cases isCall
    · cases isCondition
    · cases isSite
      exact selectorAddress_map ok
  · subst isGiven
    rcases isAddress with absent | absent | absent <;> cases absent

theorem selector_addresses {args : List String} {selector : Selector} (ok : parseSelector args = .ok selector)
    {flag : String} (isAddress : flag = "--call-site" ∨ flag = "--condition" ∨ flag = "--at") :
    ∃ given, valueArg args flag = .ok given ∧ ∀ text, given = some text →
      ∃ address, parseAddress text = some address := by
  have done := Fallible.mapError_ok ok
  unfold selectorFromArgs at done
  obtain ⟨var,_,done⟩ := Fallible.bind_ok.mp done
  obtain ⟨call,hasCall,done⟩ := Fallible.bind_ok.mp done
  obtain ⟨argument,_,done⟩ := Fallible.bind_ok.mp done
  obtain ⟨condition,hasCondition,done⟩ := Fallible.bind_ok.mp done
  obtain ⟨site,hasSite,done⟩ := Fallible.bind_ok.mp done
  rcases isAddress with rfl | rfl | rfl
  · exact ⟨call,messageArg_ok.mp hasCall,fun _ => selectRoot_addresses done (Or.inl rfl)⟩
  · exact ⟨condition,messageArg_ok.mp hasCondition,fun _ => selectRoot_addresses done (Or.inr (Or.inl rfl))⟩
  · exact ⟨site,messageArg_ok.mp hasSite,fun _ => selectRoot_addresses done (Or.inr (Or.inr rfl))⟩

section Parameters

variable {op : Operation} {normal : Kind → String → Json} {holds : String → Json → Prop}

theorem addParameter_keeps {flag : Flag} {arg : String} {value : Json} {fields : List (String × Json)}
    (kept : ∀ entry ∈ fields, holds entry.1 entry.2)
    (new : flag.role = .semantic → flag.repeatable = false ∧ holds (parameterKey arg) value) :
    ∀ entry ∈ addParameter op flag arg value fields, holds entry.1 entry.2 := by
  intro entry member
  unfold addParameter at member
  dsimp only at member
  split at member
  · rename_i recorded
    obtain ⟨once,accepted⟩ := new recorded.1
    simp only [once,Bool.false_eq_true,if_false] at member
    rcases mem_insertField member with rfl | old
    · exact accepted
    · exact kept entry old
  · exact kept entry member

theorem parametersFrom_keeps (noPositional : op.positional = none) {args : List String}
    (new : ∀ {arg : String} {after : List String} {flag : Flag}, arg :: after <:+ args → op.flag arg = some flag →
      flag.role = .semantic → flag.repeatable = false ∧
        holds (parameterKey arg) (if flag.takesValue then normal flag.kind (after.head?.getD "") else .bool true)) :
    ∀ {skip : Bool} {rest : List String} {fields : List (String × Json)}, rest <:+ args →
      (∀ entry ∈ fields, holds entry.1 entry.2) →
        ∀ entry ∈ parametersFrom op normal skip rest fields, holds entry.1 entry.2 := by
  intro skip rest
  induction rest generalizing skip with
  | nil =>
    intro fields _ kept
    cases skip <;> simpa [parametersFrom] using kept
  | cons arg after ih =>
    intro fields suffix kept
    have later : after <:+ args := (List.suffix_cons arg after).trans suffix
    cases skip with
    | true => exact ih later kept
    | false =>
      unfold parametersFrom
      cases found : op.flag arg with
      | none => simpa [noPositional] using ih later kept
      | some flag =>
        dsimp only
        split
        · rename_i takes
          refine ih later (addParameter_keeps kept fun semantic => ?_)
          simpa [takes] using new suffix found semantic
        · rename_i takes
          refine ih later (addParameter_keeps kept fun semantic => ?_)
          simpa [takes] using new suffix found semantic

end Parameters

theorem lowerHex_digits (number : Nat) : ∀ c ∈ Nat.toDigits 16 number, isLowerHex c = true := by
  induction number using Nat.strong_induction_on with
  | _ number ih =>
    have isDigit : ∀ digit < 16, isLowerHex (Nat.digitChar digit) = true := by decide
    intro c member
    by_cases small : number < 16
    · rw [Nat.toDigits_of_lt_base small] at member
      rw [List.mem_singleton.mp member]
      exact isDigit number small
    · rw [Nat.toDigits_of_base_le (by decide) (by omega)] at member
      rcases List.mem_append.mp member with earlier | last
      · exact ih (number / 16) (by omega) c earlier
      · rw [List.mem_singleton.mp last]
        exact isDigit (number % 16) (by omega)

theorem isAddress_addressText (address : Nat) : isAddress (addressText address) = true := by
  have digits : (addressText address).toList = '0' :: 'x' :: Nat.toDigits 16 address := by
    simp [addressText]
  unfold isAddress
  rw [digits]
  simp [Nat.toDigits_ne_nil,List.all_eq_true.mpr (lowerHex_digits address)]

section Records

variable {tool : Tool} {files : Files} {opaqueFold : Bool} {op : Operation} {args : List String} {binaryPath : String}
  {data : List UInt8} {payload : Json} {references : List String} {execution : Execution}

theorem build_get {key : String} (notId : key ≠ "id") (notExecution : key ≠ "execution") :
    (build tool files opaqueFold op args binaryPath data payload references execution).get key =
      (identified tool files opaqueFold op args binaryPath data payload references).get key := by
  unfold build
  simp only [get_set_ne notExecution,get_set_ne notId]

theorem build_kind : (build tool files opaqueFold op args binaryPath data payload references execution).get "kind" =
    .text op.id := by
  rw [build_get (by decide) (by decide)]
  simp [identified,get_record]

theorem build_payload :
    (build tool files opaqueFold op args binaryPath data payload references execution).get "payload" = payload := by
  rw [build_get (by decide) (by decide)]
  simp [identified,get_record]

theorem build_parameters :
    ((build tool files opaqueFold op args binaryPath data payload references execution).get "operation").get
      "parameters" = parameters tool files op args 2 payload := by
  rw [build_get (by decide) (by decide)]
  simp [identified,get_record]

end Records

-- The records that the evidence operations produce: a slice is recorded by the run that its arguments ask for.
inductive Recorded (tool : Tool) : Json → Prop where
  | other {files : Files} {opaqueFold : Bool} {op : Operation} {args : List String} {binaryPath : String}
      {data : List UInt8} {payload : Json} {references : List String} {execution : Execution} :
      op ∈ evidenceOperations → op.id ≠ "ssa-slice" →
        Recorded tool (build tool files opaqueFold op args binaryPath data payload references execution)
  | slice {files : Files} {opaqueFold : Bool} {run : SliceRun} {args positionals : List String} {binaryPath : String}
      {data : List UInt8} {payload : Json} {references : List String} {execution : Execution} :
      validate sliceOperation args 2 = .ok positionals → sliceRun tool run data args = .ok payload →
        Recorded tool (build tool files opaqueFold sliceOperation args binaryPath data payload references execution)

-- What the payload of a slice says: the function it is in, and the nodes of a slice if there is one.
structure SlicePayload (payload : Json) where
  address : Nat
  nodes : List SliceNode
  functionAddress : payload.get "function_address" = .text (addressText address)
  noFunction : payload.get "function" = .null
  nodesRead : ((payload.get "slice").get "nodes").items = nodes.map SliceNode.toJson

theorem sliceRun_payload {tool : Tool} {run : SliceRun} {data : List UInt8} {args : List String} {payload : Json}
    (ran : sliceRun tool run data args = .ok payload) :
    Nonempty (SlicePayload payload) ∧ ∃ selector, parseSelector args = .ok selector := by
  unfold sliceRun at ran
  obtain ⟨_,_,ran⟩ := Fallible.bind_ok.mp ran
  obtain ⟨target,_,ran⟩ := Fallible.bind_ok.mp ran
  cases target with
  | none => cases ran
  | some target =>
    obtain ⟨selector,parsed,ran⟩ := Fallible.bind_ok.mp ran
    obtain ⟨maxNodes,_,ran⟩ := Fallible.bind_ok.mp ran
    obtain ⟨maxDepth,_,ran⟩ := Fallible.bind_ok.mp ran
    obtain ⟨_,_,ran⟩ := Fallible.bind_ok.mp ran
    obtain ⟨address,_,ran⟩ := Fallible.bind_ok.mp ran
    obtain ⟨⟨analysis,metrics⟩,_,ran⟩ := Fallible.bind_ok.mp ran
    refine ⟨?_,selector,parsed⟩
    cases analysis with
    | stopped instructions diagnostics =>
      rw [← Except.ok.inj ran]
      refine ⟨⟨address,[],?_,?_,?_⟩⟩
      · unfold stoppedPayload
        split <;> simp [get_set_ne,get_record]
      · unfold stoppedPayload
        split <;> simp [get_set_ne,get_record]
      · unfold stoppedPayload
        split <;> simp [get_set_ne,get_record]
    | complete diagnostics =>
      dsimp only at ran
      split at ran
      · rw [← Except.ok.inj ran]
        refine ⟨⟨address,[],?_,?_,?_⟩⟩ <;> simp [refusedPayload,get_record]
      · obtain ⟨maxCallDepth,_,ran⟩ := Fallible.bind_ok.mp ran
        obtain ⟨maxFunctions,_,ran⟩ := Fallible.bind_ok.mp ran
        obtain ⟨maxWork,_,ran⟩ := Fallible.bind_ok.mp ran
        obtain ⟨slice,_,ran⟩ := Fallible.bind_ok.mp ran
        rw [← Except.ok.inj ran]
        refine ⟨⟨address,slice.nodes,?_,?_,?_⟩⟩ <;>
          simp [slicePayload,BackwardSlice.toJson,get_record]

end Rsleigh.Agent

import Rsleigh.Agent.Catalog
import Rsleigh.Agent.SliceRecord

namespace Rsleigh.Agent.ToolCall

open Fallible

-- agent/mcp.rs.
def tools : List String := ["agent-brief","card","xrefs","search","ssa-slice","verify-bundle"]

def operation (name : String) : Option Operation :=
  if tools.contains name then operations.find? fun op => op.id = name else none

def key (flag : Flag) : String := parameterKey flag.name

def exposed (op : Operation) : List Flag := op.flags.filter fun flag => flag.role ≠ .output

def positionalKey (op : Operation) : Option String := op.positional.map String.toLower

def modeKey (op : Operation) : Option String := if op.mode.takesValue then some (key op.mode) else none

def invalid (message : String) : AgentError := ⟨"invalid_value", message⟩

def scalar (flag : Flag) (given : Json) : Outcome String :=
  if flag.kind = .count then
    match given.asNatural with
    | some number => .ok (toString number)
    | none => .error (invalid (key flag ++ " must be a non-negative integer"))
  else
    match given.asText with
    | some text => .ok text
    | none => .error (invalid (key flag ++ " must be a string"))

def pushItems (flag : Flag) (argv : List String) : List Json → Outcome (List String)
  | [] => .ok argv
  | item :: items => do
    let text ← scalar flag item
    pushItems flag (argv ++ [flag.name,text]) items

def pushValue (argv : List String) (flag : Flag) (given : Json) : Outcome (List String) :=
  if given.isNull then .ok argv
  else if flag.kind = .switch then
    match given with
    | .bool false => .ok argv
    | .bool true => .ok (argv ++ [flag.name])
    | _ => .error (invalid (key flag ++ " must be a boolean"))
  else if flag.repeatable then
    match given.asArray with
    | some items => pushItems flag argv items
    | none => .error (invalid (key flag ++ " must be an array"))
  else do
    let text ← scalar flag given
    .ok (argv ++ [flag.name,text])

abbrev Arguments := List (String × Json)

-- The argument of a name that is there and not null.
def given (arguments : Arguments) (name : String) : Option Json :=
  (Json.field name arguments).filter fun value => !value.isNull

def textArgument (arguments : Arguments) (name : String) : Outcome (Option String) :=
  match given arguments name with
  | none => .ok none
  | some (.text text) => .ok (some text)
  | some _ => .error (invalid (name ++ " must be a string"))

def isKnown (op : Operation) (name : String) : Bool :=
  (name = "file" && op.target != .none) || positionalKey op = some name || modeKey op = some name ||
    (exposed op).any fun flag => key flag = name

-- A path that leads with a dash does not read as an option.
def guardPath (file : String) : String :=
  if ['-'].isPrefixOf file.toList then "./" ++ file else file

def pushPositional (arguments : Arguments) (argv : List String) : Option String → Outcome (List String)
  | none => .ok argv
  | some name => do
    match ← textArgument arguments name with
    | some text => .ok (argv ++ [text])
    | none => .error ⟨"missing_value", name ++ " is required"⟩

def pushMode (op : Operation) (arguments : Arguments) (argv : List String) : Outcome (List String) :=
  match modeKey op with
  | none => .ok (argv ++ [op.mode.name])
  | some name =>
    match given arguments name with
    | none => .error ⟨"missing_value", name ++ " is required"⟩
    | some value => do
      let pair ← pushValue [] op.mode value
      .ok (argv ++ [op.mode.name] ++ pair.drop 1)

def pushFlags (arguments : Arguments) (argv : List String) : List Flag → Outcome (List String)
  | [] => .ok argv
  | flag :: flags => do
    match Json.field (key flag) arguments with
    | some value =>
      let argv ← pushValue argv flag value
      pushFlags arguments argv flags
    | none => pushFlags arguments argv flags

-- The arguments of the command line, and whether these name no target.
def argv (op : Operation) (arguments : Arguments) : Outcome (List String × Bool) := do
  match arguments.find? fun entry => !isKnown op entry.1 with
  | some extra => throw ⟨"unsupported_option", "unsupported " ++ op.id ++ " argument: " ++ extra.1⟩
  | none =>
    let file ← textArgument arguments "file"
    if op.target = .binary ∧ file = none then throw ⟨"invalid_target", "file is required"⟩
    let argv := "rsleigh" :: (file.map guardPath).toList
    let argv ← pushPositional arguments argv (positionalKey op)
    let argv ← pushMode op arguments argv
    let argv ← pushFlags arguments argv (exposed op)
    return (if (op.flag "--json").isSome then argv ++ ["--json"] else argv, file.isNone)

-- Where an operation starts to validate its arguments: after the target.
def start (targetFree : Bool) : Nat := if targetFree then 1 else 2


theorem digitsValue_digits {cs : List Char} (digits : ∀ c ∈ cs, c.isDigit = true) (read : Nat) :
    digitsValue 10 read cs = some (Nat.ofDigitChars 10 cs read) := by
  induction cs generalizing read with
  | nil => simp [digitsValue]
  | cons c rest ih =>
    have isDigit := digits c List.mem_cons_self
    have below : c.toNat - '0'.toNat < 10 := by
      have bound := (Char.isDigit_iff_toNat.mp isDigit).2
      have zero : '0'.toNat = 48 := rfl
      have nine : '9'.toNat = 57 := rfl
      omega
    have found : digitOf 10 c = some (c.toNat - '0'.toNat) := by
      simp only [digitOf,isDigit,if_true,Option.filter_some,decide_eq_true_eq,if_pos below]
    rw [digitsValue,found,Option.bind_some,ih fun c member => digits c (List.mem_cons_of_mem _ member),
      Nat.ofDigitChars_cons,Nat.mul_comm]

theorem parseNumber_toString {number : Nat} (small : number < 2 ^ 64) : parseNumber (toString number) = some number := by
  have digits : ∀ c ∈ Nat.toDigits 10 number, c.isDigit = true := fun c member =>
    Nat.isDigit_of_mem_toDigits (by decide) (by decide) member
  have noPlus : stripPlus (Nat.toDigits 10 number) = Nat.toDigits 10 number := by
    cases written : Nat.toDigits 10 number with
    | nil => rfl
    | cons c rest =>
      have notPlus : c ≠ '+' := by
        intro isPlus
        have isDigit := digits c (by rw [written]; exact List.mem_cons_self)
        rw [isPlus] at isDigit
        exact absurd isDigit (by decide)
      unfold stripPlus
      split
      · rename_i same
        exact absurd (List.cons.inj same).1 notPlus
      · rfl
  have nonempty : (Nat.toDigits 10 number).isEmpty = false := by simp
  unfold parseNumber fromStrRadix
  rw [Nat.toString_eq_repr,Nat.toList_repr,noPlus,nonempty,digitsValue_digits digits,Nat.ofDigitChars_ten_toDigits]
  rw [if_neg (by simp),Option.filter_some,if_pos (by simpa using small)]

-- One written flag: its name, and its value where it takes one.
abbrev Part := Flag × Option String

def renderPart (part : Part) : List String := part.1.name :: part.2.toList

def render (parts : List Part) : List String := parts.flatMap renderPart

-- The text of a scalar that the operation takes.
def scalarText : Json → String
  | .number number => toString number.toNat
  | .text text => text
  | _ => ""

-- What the argument of a flag is written as.
def partsOf (arguments : Arguments) (flag : Flag) : List Part :=
  match given arguments (key flag) with
  | none => []
  | some value =>
    if flag.kind = .switch then if value = .bool true then [(flag,none)] else []
    else if flag.repeatable then value.items.map fun item => (flag,some (scalarText item))
    else [(flag,some (scalarText value))]

-- A scalar has the type of its flag.
def Scalar (flag : Flag) (value : Json) : Prop :=
  if flag.kind = .count then ∃ number : Nat, number < 2 ^ 64 ∧ value = .number number
  else ∃ text, value = .text text

def Typed (flag : Flag) (value : Json) : Prop :=
  if flag.kind = .switch then ∃ given, value = .bool given
  else if flag.repeatable then ∃ items, value = .array items ∧ ∀ item ∈ items, Scalar flag item
  else Scalar flag value

theorem scalar_ok {flag : Flag} {value : Json} {text : String} (ok : scalar flag value = .ok text) :
    Scalar flag value ∧ text = scalarText value := by
  unfold scalar at ok
  unfold Scalar
  by_cases isCount : flag.kind = .count
  · rw [if_pos isCount] at ok ⊢
    cases found : value.asNatural with
    | none => simp [found] at ok
    | some number =>
      simp only [found,Except.ok.injEq] at ok
      cases value with
      | number read =>
        obtain ⟨bounds,same⟩ := Option.ite_none_right_eq_some.mp found
        have isNumber : read.toNat = number := Option.some.inj same
        refine ⟨⟨number,by omega,by rw [← isNumber,Int.toNat_of_nonneg bounds.1]⟩,?_⟩
        rw [← ok,scalarText,isNumber]
      | _ => simp [Json.asNatural] at found
  · rw [if_neg isCount] at ok ⊢
    cases value with
    | text given =>
      simp only [Json.asText_text,Except.ok.injEq] at ok
      exact ⟨⟨given,rfl⟩,ok.symm⟩
    | _ => simp [Json.asText] at ok

theorem render_append {first second : List Part} : render (first ++ second) = render first ++ render second :=
  List.flatMap_append

theorem pushItems_ok {flag : Flag} {written out : List String} {items : List Json}
    (ok : pushItems flag written items = .ok out) : (∀ item ∈ items, Scalar flag item) ∧
      out = written ++ render (items.map fun item => (flag,some (scalarText item))) := by
  induction items generalizing written with
  | nil =>
    cases ok
    exact ⟨by simp,by simp [render]⟩
  | cons item rest ih =>
    obtain ⟨text,isText,ok⟩ := bind_ok.mp ok
    obtain ⟨isScalar,rfl⟩ := scalar_ok isText
    obtain ⟨scalars,rfl⟩ := ih ok
    refine ⟨?_,by simp [render,renderPart]⟩
    intro item member
    rcases List.mem_cons.mp member with rfl | later
    · exact isScalar
    · exact scalars item later

-- A value that is pushed is typed, and is written as its parts.
theorem pushValue_ok {arguments : Arguments} {flag : Flag} {value : Json} {written out : List String}
    (isGiven : given arguments (key flag) = some value) (ok : pushValue written flag value = .ok out) :
    Typed flag value ∧ out = written ++ render (partsOf arguments flag) := by
  have notNull : value.isNull = false := by
    unfold given at isGiven
    simpa using (Option.filter_eq_some_iff.mp isGiven).2
  unfold pushValue at ok
  rw [notNull] at ok
  simp only [Bool.false_eq_true,if_false] at ok
  unfold Typed partsOf
  rw [isGiven]
  simp only []
  by_cases isSwitch : flag.kind = .switch
  · rw [if_pos isSwitch] at ok ⊢
    rw [if_pos isSwitch]
    cases value with
    | bool on => cases on <;> cases ok <;> simp [render,renderPart]
    | _ => cases ok
  · rw [if_neg isSwitch] at ok ⊢
    rw [if_neg isSwitch]
    by_cases many : flag.repeatable = true
    · rw [if_pos many] at ok ⊢
      rw [if_pos many]
      cases value with
      | array items =>
        obtain ⟨scalars,rfl⟩ := pushItems_ok ok
        exact ⟨⟨items,rfl,scalars⟩,rfl⟩
      | _ => simp [Json.asArray] at ok
    · rw [if_neg many] at ok ⊢
      rw [if_neg many]
      obtain ⟨text,isText,ok⟩ := bind_ok.mp ok
      cases ok
      obtain ⟨isScalar,rfl⟩ := scalar_ok isText
      exact ⟨isScalar,by simp [render,renderPart]⟩

theorem pushFlags_ok {arguments : Arguments} {flags : List Flag} {written out : List String}
    (ok : pushFlags arguments written flags = .ok out) :
    (∀ flag ∈ flags, ∀ value, given arguments (key flag) = some value → Typed flag value) ∧
      out = written ++ render (flags.flatMap (partsOf arguments)) := by
  induction flags generalizing written with
  | nil =>
    cases ok
    exact ⟨by simp,by simp [render]⟩
  | cons flag rest ih =>
    have step : ∃ middle, ((∀ value, given arguments (key flag) = some value → Typed flag value) ∧
        middle = written ++ render (partsOf arguments flag)) ∧ pushFlags arguments middle rest = .ok out := by
      unfold pushFlags at ok
      cases found : Json.field (key flag) arguments with
      | none =>
        have absent : given arguments (key flag) = none := by simp [given,found]
        rw [found] at ok
        exact ⟨written,⟨by simp [absent],by simp [partsOf,absent,render]⟩,ok⟩
      | some value =>
        rw [found] at ok
        obtain ⟨middle,pushed,ok⟩ := bind_ok.mp ok
        refine ⟨middle,?_,ok⟩
        by_cases isNull : value.isNull = true
        · have absent : given arguments (key flag) = none := by simp [given,found,isNull]
          unfold pushValue at pushed
          rw [if_pos isNull] at pushed
          cases pushed
          exact ⟨by simp [absent],by simp [partsOf,absent,render]⟩
        · have isGiven : given arguments (key flag) = some value := by simp [given,found,isNull]
          obtain ⟨typed,rfl⟩ := pushValue_ok isGiven pushed
          refine ⟨?_,rfl⟩
          intro other isOther
          rw [isGiven] at isOther
          cases isOther
          exact typed
    obtain ⟨middle,⟨typed,rfl⟩,ok⟩ := step
    obtain ⟨typedRest,rfl⟩ := ih ok
    refine ⟨?_,by simp [render_append]⟩
    intro other member
    rcases List.mem_cons.mp member with rfl | later
    · exact typed
    · exact typedRest other later

def fileText (arguments : Arguments) : Option String := (given arguments "file").bind Json.asText

def positionalText (op : Operation) (arguments : Arguments) : Option String :=
  (positionalKey op).bind fun name => (given arguments name).bind Json.asText

def modeText (op : Operation) (arguments : Arguments) : Option String :=
  (modeKey op).bind fun name => (given arguments name).map scalarText

-- The arguments after the positional, flag by flag.
def partsFor (op : Operation) (arguments : Arguments) : List Part :=
  (op.mode,modeText op arguments) :: ((exposed op).flatMap (partsOf arguments) ++ [(jsonFlag,none)])

def bare (op : Operation) (arguments : Arguments) : List String :=
  ((fileText arguments).map guardPath).toList ++ (positionalText op arguments).toList

-- What every operation of the catalog keeps to.
structure Regular (op : Operation) : Prop where
  distinct : (op.allFlags.map Flag.name).Nodup
  dashed : ∀ flag ∈ op.allFlags, isFlag flag.name = true
  mode : op.mode.kind ≠ .count ∧ op.mode.repeatable = false
  counts : ∀ flag ∈ op.flags, flag.kind = .count → flag.repeatable = false
  json : op.flag "--json" = some jsonFlag
  text : op.target ≠ .none

theorem operation_regular {name : String} {op : Operation} (found : operation name = some op) : Regular op := by
  have all : ∀ op ∈ operations, ((op.allFlags.map Flag.name).Nodup ∧ (∀ flag ∈ op.allFlags, isFlag flag.name = true) ∧
      (op.mode.kind ≠ .count ∧ op.mode.repeatable = false) ∧
      (∀ flag ∈ op.flags, flag.kind = .count → flag.repeatable = false) ∧ op.flag "--json" = some jsonFlag ∧
      op.target ≠ .none) ∨ tools.contains op.id = false := by
    decide +kernel
  unfold operation at found
  by_cases isTool : tools.contains name = true
  · rw [if_pos isTool] at found
    have named : op.id = name := by simpa using List.find?_some found
    rcases all op (List.mem_of_find?_eq_some found) with regular | notTool
    · exact ⟨regular.1,regular.2.1,regular.2.2.1,regular.2.2.2.1,regular.2.2.2.2.1,regular.2.2.2.2.2⟩
    · rw [named,isTool] at notTool
      cases notTool
  · rw [if_neg isTool] at found
    cases found

theorem textArgument_ok {arguments : Arguments} {name : String} {text : Option String}
    (ok : textArgument arguments name = .ok text) : given arguments name = text.map Json.text := by
  unfold textArgument at ok
  cases isGiven : given arguments name with
  | none =>
    rw [isGiven] at ok
    cases ok
    rfl
  | some value =>
    rw [isGiven] at ok
    cases value <;> cases ok
    rfl

theorem pushPositional_ok {op : Operation} {arguments : Arguments} {written out : List String}
    (ok : pushPositional arguments written (positionalKey op) = .ok out) :
    out = written ++ (positionalText op arguments).toList ∧
      (positionalKey op).bind (given arguments) = (positionalText op arguments).map Json.text ∧
      ((positionalText op arguments).isSome → op.positional.isSome) := by
  unfold positionalText
  cases named : positionalKey op with
  | none =>
    rw [named] at ok
    cases ok
    simp
  | some name =>
    rw [named] at ok
    obtain ⟨text,isText,ok⟩ := bind_ok.mp ok
    have isGiven := textArgument_ok isText
    cases text with
    | none => cases ok
    | some text =>
      cases ok
      have isSome : op.positional.isSome := by
        unfold positionalKey at named
        cases present : op.positional with
        | none => simp [present] at named
        | some _ => rfl
      simp [isGiven,isSome]

theorem pushMode_ok {op : Operation} {arguments : Arguments} {written out : List String}
    (mode : op.mode.kind ≠ .count ∧ op.mode.repeatable = false) (ok : pushMode op arguments written = .ok out) :
    out = written ++ renderPart (op.mode,modeText op arguments) ∧
      (modeText op arguments).isSome = op.mode.takesValue ∧
      ∀ name, modeKey op = some name → given arguments name = (modeText op arguments).map Json.text := by
  unfold pushMode at ok
  unfold modeText
  cases named : modeKey op with
  | none =>
    rw [named] at ok
    cases ok
    have noValue : op.mode.takesValue = false := by
      unfold modeKey at named
      simpa using named
    simp [renderPart,noValue]
  | some name =>
    rw [named] at ok
    obtain ⟨takes,isKey⟩ := Option.ite_none_right_eq_some.mp named
    cases isGiven : given arguments name with
    | none =>
      simp only [isGiven] at ok
      cases ok
    | some value =>
      simp only [isGiven] at ok
      obtain ⟨pair,pushed,ok⟩ := bind_ok.mp ok
      cases ok
      have underKey : given arguments (key op.mode) = some value := by
        rw [Option.some.inj isKey]
        exact isGiven
      obtain ⟨typed,rfl⟩ := pushValue_ok underKey pushed
      have notSwitch : op.mode.kind ≠ .switch := by simpa [Flag.takesValue] using takes
      unfold Typed Scalar at typed
      rw [if_neg notSwitch,if_neg (by simp [mode.2]),if_neg mode.1] at typed
      obtain ⟨text,rfl⟩ := typed
      have isPart : partsOf arguments op.mode = [(op.mode,some text)] := by
        simp [partsOf,underKey,notSwitch,mode.2,scalarText]
      rw [isPart]
      simp [renderPart,render,takes,scalarText,isGiven]

-- A command line that is built: the bare arguments, and then the parts.
structure Built (op : Operation) (arguments : Arguments) (args : List String) (targetFree : Bool) : Prop where
  written : args = "rsleigh" :: (bare op arguments ++ render (partsFor op arguments))
  targetFree : targetFree = (fileText arguments).isNone
  known : ∀ entry ∈ arguments, isKnown op entry.1 = true
  file : given arguments "file" = (fileText arguments).map Json.text
  positional : (positionalKey op).bind (given arguments) = (positionalText op arguments).map Json.text
  accepts : (positionalText op arguments).isSome → op.positional.isSome
  modeTakes : (modeText op arguments).isSome = op.mode.takesValue
  mode : ∀ name, modeKey op = some name → given arguments name = (modeText op arguments).map Json.text
  typed : ∀ flag ∈ exposed op, ∀ value, given arguments (key flag) = some value → Typed flag value

theorem argv_ok {op : Operation} {arguments : Arguments} {args : List String} {targetFree : Bool}
    (regular : Regular op) (ok : argv op arguments = .ok (args,targetFree)) : Built op arguments args targetFree := by
  unfold argv at ok
  cases extra : arguments.find? fun entry => !isKnown op entry.1 with
  | some entry =>
    rw [extra] at ok
    cases ok
  | none =>
    rw [extra] at ok
    obtain ⟨file,isFile,ok⟩ := bind_ok.mp ok
    have hasFile : fileText arguments = file := by
      unfold fileText
      rw [textArgument_ok isFile]
      cases file <;> rfl
    by_cases missing : op.target = .binary ∧ file = none
    · simp only [if_pos missing] at ok
      cases ok
    simp only [if_neg missing] at ok
    obtain ⟨withPositional,pushed,ok⟩ := bind_ok.mp ok
    obtain ⟨rfl,positional,accepts⟩ := pushPositional_ok pushed
    obtain ⟨withMode,pushed,ok⟩ := bind_ok.mp ok
    obtain ⟨rfl,modeTakes,mode⟩ := pushMode_ok regular.mode pushed
    obtain ⟨withFlags,pushed,ok⟩ := bind_ok.mp ok
    obtain ⟨typed,rfl⟩ := pushFlags_ok pushed
    rw [regular.json] at ok
    obtain ⟨isArgs,isFree⟩ := Prod.mk.inj (Fallible.pure_ok.mp ok)
    refine ⟨?_,?_,?_,?_,positional,accepts,modeTakes,mode,typed⟩
    · rw [← isArgs]
      simp [bare,hasFile,partsFor,render,renderPart,jsonFlag,switch,Flag.withRole]
    · rw [← isFree,hasFile]
    · intro entry member
      simpa using List.find?_eq_none.mp extra entry member
    · rw [hasFile]
      exact textArgument_ok isFile

theorem partsOf_flag {arguments : Arguments} {flag : Flag} {part : Part} (member : part ∈ partsOf arguments flag) :
    part.1 = flag ∧ part.2.isSome = flag.takesValue ∧ (given arguments (key flag)).isSome = true := by
  unfold partsOf at member
  cases isGiven : given arguments (key flag) with
  | none => simp [isGiven] at member
  | some value =>
    rw [isGiven] at member
    simp only [] at member
    by_cases isSwitch : flag.kind = .switch
    · rw [if_pos isSwitch] at member
      split at member
      · cases List.mem_singleton.mp member
        simp [Flag.takesValue,isSwitch]
      · cases member
    · rw [if_neg isSwitch] at member
      split at member
      · obtain ⟨item,_,rfl⟩ := List.mem_map.mp member
        simp [Flag.takesValue,isSwitch]
      · cases List.mem_singleton.mp member
        simp [Flag.takesValue,isSwitch]

theorem filter_absent {arguments : Arguments} {name : String} {flags : List Flag}
    (absent : name ∉ flags.map Flag.name) :
    (flags.flatMap (partsOf arguments)).filter (fun part => part.1.name = name) = [] := by
  rw [List.filter_eq_nil_iff]
  intro part member named
  obtain ⟨flag,isFlag,member⟩ := List.mem_flatMap.mp member
  rw [(partsOf_flag member).1] at named
  exact absent (List.mem_map.mpr ⟨flag,isFlag,by simpa using named⟩)

theorem filter_present {arguments : Arguments} {flag : Flag} {flags : List Flag}
    (distinct : (flags.map Flag.name).Nodup) (member : flag ∈ flags) :
    (flags.flatMap (partsOf arguments)).filter (fun part => part.1.name = flag.name) = partsOf arguments flag := by
  induction flags with
  | nil => cases member
  | cons head rest ih =>
    obtain ⟨fresh,distinct⟩ := List.nodup_cons.mp distinct
    rw [List.flatMap_cons,List.filter_append]
    rcases List.mem_cons.mp member with rfl | later
    · rw [filter_absent fresh,List.append_nil,List.filter_eq_self]
      intro part isPart
      simp [(partsOf_flag isPart).1]
    · have other : head.name ≠ flag.name := fun same => fresh (by rw [same]; exact List.mem_map_of_mem later)
      have nothing : (partsOf arguments head).filter (fun part => part.1.name = flag.name) = [] := by
        rw [List.filter_eq_nil_iff]
        intro part isPart
        simp [(partsOf_flag isPart).1,other]
      rw [nothing,List.nil_append]
      exact ih distinct later

theorem exposed_sublist (op : Operation) : (exposed op).Sublist op.flags :=
  List.filter_sublist

theorem exposed_distinct {op : Operation} (regular : Regular op) : ((exposed op).map Flag.name).Nodup :=
  ((List.nodup_cons.mp regular.distinct).2).sublist ((exposed_sublist op).map _)

theorem mode_apart {op : Operation} (regular : Regular op) : op.mode.name ∉ (exposed op).map Flag.name := fun member =>
  (List.nodup_cons.mp regular.distinct).1 (((exposed_sublist op).map _).subset member)

theorem json_found {op : Operation} (regular : Regular op) : jsonFlag ∈ op.allFlags :=
  List.mem_of_find?_eq_some regular.json

theorem same_flag {op : Operation} (regular : Regular op) {flag other : Flag} (member : flag ∈ op.allFlags)
    (otherMember : other ∈ op.allFlags) (same : flag.name = other.name) : flag = other :=
  List.inj_on_of_nodup_map regular.distinct member otherMember same

theorem json_apart {op : Operation} (regular : Regular op) : "--json" ∉ (exposed op).map Flag.name := by
  intro member
  obtain ⟨flag,isExposed,named⟩ := List.mem_map.mp member
  obtain ⟨isMember,notOutput⟩ := List.mem_filter.mp isExposed
  have isJson := same_flag regular (List.mem_cons_of_mem _ isMember) (json_found regular) named
  rw [isJson] at notOutput
  exact absurd notOutput (by decide)

theorem flag_of_member {op : Operation} (regular : Regular op) {flag : Flag} (member : flag ∈ op.allFlags) :
    op.flag flag.name = some flag := by
  cases found : op.flag flag.name with
  | none => exact absurd (List.find?_eq_none.mp found flag member) (by simp)
  | some other =>
    have named : other.name = flag.name := by simpa using List.find?_some found
    rw [same_flag regular (List.mem_of_find?_eq_some found) member named]

theorem parts_flags {op : Operation} {arguments : Arguments} {args : List String} {targetFree : Bool}
    (regular : Regular op) (built : Built op arguments args targetFree) :
    ∀ part ∈ partsFor op arguments, part.1 ∈ op.allFlags ∧ part.2.isSome = part.1.takesValue := by
  intro part member
  rcases List.mem_cons.mp member with rfl | member
  · exact ⟨List.mem_cons_self,built.modeTakes⟩
  rcases List.mem_append.mp member with member | member
  · obtain ⟨flag,isExposed,member⟩ := List.mem_flatMap.mp member
    obtain ⟨isFlag,takes,_⟩ := partsOf_flag member
    rw [isFlag]
    exact ⟨List.mem_cons_of_mem _ ((exposed_sublist op).subset isExposed),takes⟩
  · cases List.mem_singleton.mp member
    exact ⟨json_found regular,rfl⟩

theorem givenValue_ok {flag : String} {next : Option String} {text : String} (ok : givenValue flag next = .ok text) :
    next = some text ∧ isFlag text = false := by
  unfold givenValue at ok
  cases next with
  | none => cases ok
  | some value =>
    by_cases isOther : isFlag value = true
    · simp [isOther] at ok
    · simp only [isOther] at ok
      cases ok
      exact ⟨rfl,by simpa using isOther⟩

theorem valueArg_plain {args : List String} {flag text : String} (ok : valueArg args flag = .ok (some text)) :
    isFlag text = false := by
  have once := valueArg_some ok
  unfold valueArg at ok
  rw [once] at ok
  obtain ⟨read,isRead,same⟩ := Fallible.map_ok ok
  cases same
  exact (givenValue_ok isRead).2

-- No positional is an option.
theorem validateFrom_positionals {op : Operation} {args rest positionals : List String} {skip : Bool}
    (ok : validateFrom op args skip rest = .ok positionals) : ∀ text ∈ positionals, isFlag text = false := by
  induction rest generalizing skip positionals with
  | nil =>
    cases skip <;> cases ok <;> simp
  | cons arg rest ih =>
    cases skip with
    | true => exact ih ok
    | false =>
      unfold validateFrom at ok
      by_cases isOption : isFlag arg = true
      · rw [if_pos isOption] at ok
        cases found : op.flag arg with
        | none => simp [found] at ok
        | some flag =>
          simp only [found] at ok
          by_cases takes : flag.takesValue = true
          · rw [if_pos takes] at ok
            by_cases many : flag.repeatable = true
            · rw [if_pos many] at ok
              obtain ⟨_,_,ok⟩ := bind_ok.mp ok
              exact ih ok
            · rw [if_neg many] at ok
              obtain ⟨_,_,ok⟩ := bind_ok.mp ok
              exact ih ok
          · rw [if_neg takes] at ok
            exact ih ok
      · rw [if_neg isOption] at ok
        by_cases accepts : op.positional.isSome = true
        · rw [if_pos accepts] at ok
          obtain ⟨later,isLater,same⟩ := Fallible.map_ok ok
          intro text member
          rw [← same] at member
          rcases List.mem_cons.mp member with rfl | member
          · simpa using isOption
          · exact ih isLater text member
        · rw [if_neg accepts] at ok
          cases ok

-- Over the parts, every value is checked, and nothing is a positional.
theorem validateFrom_render {op : Operation} (regular : Regular op) {args positionals : List String} {parts : List Part}
    (flags : ∀ part ∈ parts, part.1 ∈ op.allFlags ∧ part.2.isSome = part.1.takesValue)
    (suffix : render parts <:+ args) (ok : validateFrom op args false (render parts) = .ok positionals) :
    positionals = [] ∧ ∀ part ∈ parts, ∀ text ∈ part.2, isFlag text = false := by
  induction parts with
  | nil =>
    cases ok
    exact ⟨rfl,by simp⟩
  | cons part rest ih =>
    obtain ⟨flag,text⟩ := part
    obtain ⟨member,takes⟩ := flags _ List.mem_cons_self
    have laterFlags : ∀ part ∈ rest, part.1 ∈ op.allFlags ∧ part.2.isSome = part.1.takesValue := fun part member =>
      flags part (List.mem_cons_of_mem _ member)
    have written : render ((flag,text) :: rest) = flag.name :: (text.toList ++ render rest) := rfl
    rw [written] at ok suffix
    unfold validateFrom at ok
    rw [if_pos (regular.dashed flag member),flag_of_member regular member] at ok
    simp only [] at ok
    cases text with
    | none =>
      rw [if_neg (by simp [← takes])] at ok
      obtain ⟨none,plain⟩ := ih laterFlags ((List.suffix_cons _ _).trans suffix) ok
      refine ⟨none,?_⟩
      intro part isPart text isText
      rcases List.mem_cons.mp isPart with rfl | later
      · cases isText
      · exact plain part later text isText
    | some text =>
      rw [if_pos (by simp [← takes])] at ok
      have step : isFlag text = false ∧ validateFrom op args true (text :: render rest) = .ok positionals := by
        by_cases many : flag.repeatable = true
        · rw [if_pos many] at ok
          obtain ⟨read,isRead,ok⟩ := bind_ok.mp ok
          obtain ⟨same,plain⟩ := givenValue_ok isRead
          cases same
          exact ⟨plain,ok⟩
        · rw [if_neg many] at ok
          obtain ⟨read,isRead,ok⟩ := bind_ok.mp ok
          obtain ⟨found,rfl,isNext⟩ := valueArg_at suffix isRead
          cases isNext
          exact ⟨valueArg_plain isRead,ok⟩
      have tail : render rest <:+ args := ((List.suffix_cons _ _).trans (List.suffix_cons _ _)).trans suffix
      obtain ⟨none,plain⟩ := ih laterFlags tail step.2
      refine ⟨none,?_⟩
      intro part isPart other isText
      rcases List.mem_cons.mp isPart with rfl | later
      · cases isText
        exact step.1
      · exact plain part later other isText

theorem following_plain {name : String} {plain rest : List String} (apart : ∀ arg ∈ plain, arg ≠ name) :
    following name (plain ++ rest) = following name rest := by
  induction plain with
  | nil => rfl
  | cons arg plain ih =>
    rw [List.cons_append,following,if_neg (apart arg List.mem_cons_self)]
    exact ih fun arg member => apart arg (List.mem_cons_of_mem _ member)

theorem following_render {flag : Flag} (dashed : isFlag flag.name = true) {parts : List Part}
    (plain : ∀ part ∈ parts, ∀ text ∈ part.2, isFlag text = false)
    (takes : ∀ part ∈ parts, part.1.name = flag.name → part.2.isSome = true) :
    following flag.name (render parts) = (parts.filter fun part => part.1.name = flag.name).map Prod.snd := by
  induction parts with
  | nil => rfl
  | cons part rest ih =>
    obtain ⟨other,text⟩ := part
    have later := ih (fun part member => plain part (List.mem_cons_of_mem _ member))
      (fun part member => takes part (List.mem_cons_of_mem _ member))
    have values : following flag.name (text.toList ++ render rest) = following flag.name (render rest) := by
      refine following_plain ?_
      intro arg member isName
      have isPlain := plain _ List.mem_cons_self arg (by simpa using member)
      rw [isName,dashed] at isPlain
      cases isPlain
    have written : render ((other,text) :: rest) = other.name :: (text.toList ++ render rest) := rfl
    rw [written,following,values,later]
    by_cases named : other.name = flag.name
    · have isSome := takes _ List.mem_cons_self named
      cases text with
      | none => cases isSome
      | some text => simp [named]
    · simp [named]

-- What the operations read from the arguments is what the caller gave.
structure ReadsBack (op : Operation) (arguments : Arguments) (args : List String) (targetFree : Bool)
    (positionals : List String) : Prop where
  known : ∀ entry ∈ arguments, isKnown op entry.1 = true
  file : given arguments "file" = none ∧ targetFree = true ∨
    ∃ text, given arguments "file" = some (.text text) ∧ targetFree = false ∧ args[1]? = some (guardPath text)
  positional : positionals.map Json.text = ((positionalKey op).bind (given arguments)).toList
  mode : op.mode.name ∈ args ∧ ∀ name, modeKey op = some name →
    ∃ text, given arguments name = some (.text text) ∧ valueArg args op.mode.name = .ok (some text)
  switches : ∀ flag ∈ exposed op, flag.kind = .switch →
    (flag.name ∈ args ↔ given arguments (key flag) = some (.bool true))
  repeated : ∀ flag ∈ exposed op, flag.kind ≠ .switch → flag.repeatable = true →
    ∃ texts, valuesArg args flag.name = .ok texts ∧ (given arguments (key flag) = none ∧ texts = [] ∨
      given arguments (key flag) = some (.array (texts.map Json.text)))
  counts : ∀ flag ∈ exposed op, flag.kind = .count → ∀ default,
    given arguments (key flag) = none ∧ numberArg args flag.name default = .ok default ∨
      ∃ number : Nat, given arguments (key flag) = some (.number number) ∧
        numberArg args flag.name default = .ok number
  values : ∀ flag ∈ exposed op, flag.kind ≠ .switch → flag.kind ≠ .count → flag.repeatable = false →
    given arguments (key flag) = none ∧ valueArg args flag.name = .ok none ∨
      ∃ text, given arguments (key flag) = some (.text text) ∧ valueArg args flag.name = .ok (some text)
  options : ∀ arg ∈ args, isFlag arg = true → arg = op.mode.name ∨ arg = "--json" ∨
    ∃ flag ∈ exposed op, flag.name = arg ∧ (given arguments (key flag)).isSome = true

theorem guardPath_plain (file : String) : isFlag (guardPath file) = false := by
  unfold guardPath isFlag
  by_cases dashed : ['-'].isPrefixOf file.toList = true
  · rw [if_pos dashed]
    rw [String.toList_append]
    rfl
  · rw [if_neg dashed]
    cases written : file.toList with
    | nil => rfl
    | cons c rest =>
      rw [written] at dashed
      simp only [List.isPrefixOf,Bool.and_true,beq_iff_eq] at dashed
      simp [List.isPrefixOf,dashed]

theorem bare_plain {op : Operation} {arguments : Arguments}
    (plain : ∀ text, positionalText op arguments = some text → isFlag text = false) :
    ∀ arg ∈ "rsleigh" :: bare op arguments, isFlag arg = false := by
  intro arg member
  rcases List.mem_cons.mp member with rfl | member
  · decide
  rcases List.mem_append.mp member with member | member
  · obtain ⟨file,_,rfl⟩ := Option.map_eq_some_iff.mp (Option.mem_toList.mp member)
    exact guardPath_plain file
  · exact plain arg (Option.mem_toList.mp member)

theorem bare_start {op : Operation} {arguments : Arguments} {args : List String} {targetFree : Bool}
    (built : Built op arguments args targetFree) :
    args.drop (start targetFree) = (positionalText op arguments).toList ++ render (partsFor op arguments) := by
  rw [built.written,built.targetFree]
  cases file : fileText arguments <;> simp [bare,file,start]

theorem validate_positionals {op : Operation} {args positionals : List String} {start : Nat}
    (ok : validate op args start = .ok positionals) : validateFrom op args false (args.drop start) = .ok positionals := by
  obtain ⟨read,walked,rest⟩ := bind_ok.mp ok
  have same : read = positionals := by
    obtain ⟨_,_,rest⟩ := bind_ok.mp rest
    by_cases limited : (op.flag "--limit").isSome = true
    · simp only [if_pos limited] at rest
      obtain ⟨limit,_,rest⟩ := bind_ok.mp rest
      by_cases isGiven : limit.isSome = true
      · simp only [if_pos isGiven] at rest
        obtain ⟨number,_,rest⟩ := bind_ok.mp rest
        by_cases isZero : number = 0
        · simp only [if_pos isZero] at rest
          cases rest
        · simp only [if_neg isZero] at rest
          exact Fallible.pure_ok.mp rest
      · simp only [if_neg isGiven] at rest
        exact Fallible.pure_ok.mp rest
    · simp only [if_neg limited] at rest
      exact Fallible.pure_ok.mp rest
  rw [walked,same]

theorem validate_parts {op : Operation} {arguments : Arguments} {args positionals : List String} {targetFree : Bool}
    (regular : Regular op) (built : Built op arguments args targetFree)
    (plain : ∀ text, positionalText op arguments = some text → isFlag text = false)
    (ok : validate op args (start targetFree) = .ok positionals) :
    positionals = (positionalText op arguments).toList ∧
      ∀ part ∈ partsFor op arguments, ∀ text ∈ part.2, isFlag text = false := by
  have walked := validate_positionals ok
  rw [bare_start built] at walked
  have suffix : render (partsFor op arguments) <:+ args := by
    rw [built.written]
    exact (List.suffix_append _ _).trans (List.suffix_cons _ _)
  cases isText : positionalText op arguments with
  | none =>
    rw [isText] at walked
    exact validateFrom_render regular (parts_flags regular built) suffix walked
  | some text =>
    have accepts := built.accepts (by rw [isText]; rfl)
    rw [isText,Option.toList_some,List.singleton_append,validateFrom,if_neg (by simp [plain text isText]),
      if_pos accepts] at walked
    obtain ⟨later,isLater,rfl⟩ := Fallible.map_ok walked
    obtain ⟨rfl,values⟩ := validateFrom_render regular (parts_flags regular built) suffix isLater
    exact ⟨rfl,values⟩

section Reading

variable {op : Operation} {arguments : Arguments} {args : List String} {targetFree : Bool}

theorem following_built (regular : Regular op) (built : Built op arguments args targetFree)
    (plain : ∀ text, positionalText op arguments = some text → isFlag text = false)
    (values : ∀ part ∈ partsFor op arguments, ∀ text ∈ part.2, isFlag text = false) {flag : Flag}
    (member : flag ∈ op.allFlags) (takes : flag.takesValue = true) :
    following flag.name args = ((partsFor op arguments).filter fun part => part.1.name = flag.name).map Prod.snd := by
  rw [built.written,← List.cons_append,following_plain,following_render (regular.dashed flag member) values]
  · intro part isPart named
    obtain ⟨isMember,isSome⟩ := parts_flags regular built part isPart
    rw [isSome,same_flag regular isMember member named]
    exact takes
  · intro arg isBare named
    have isPlain := bare_plain plain arg isBare
    rw [named,regular.dashed flag member] at isPlain
    cases isPlain

theorem following_exposed (regular : Regular op) (built : Built op arguments args targetFree)
    (plain : ∀ text, positionalText op arguments = some text → isFlag text = false)
    (values : ∀ part ∈ partsFor op arguments, ∀ text ∈ part.2, isFlag text = false) {flag : Flag}
    (member : flag ∈ exposed op) (takes : flag.takesValue = true) :
    following flag.name args = (partsOf arguments flag).map Prod.snd := by
  have isFlag := List.mem_cons_of_mem op.mode ((exposed_sublist op).subset member)
  have notMode : op.mode.name ≠ flag.name := fun same =>
    mode_apart regular (by rw [same]; exact List.mem_map_of_mem member)
  have notJson : jsonFlag.name ≠ flag.name := fun same =>
    json_apart regular (List.mem_map.mpr ⟨flag,member,same.symm⟩)
  rw [following_built regular built plain values isFlag takes,partsFor,List.filter_cons_of_neg (by simp [notMode]),
    List.filter_append,filter_present (exposed_distinct regular) member,
    List.filter_cons_of_neg (by simp [notJson]),List.filter_nil,List.append_nil]

theorem following_mode (regular : Regular op) (built : Built op arguments args targetFree)
    (plain : ∀ text, positionalText op arguments = some text → isFlag text = false)
    (values : ∀ part ∈ partsFor op arguments, ∀ text ∈ part.2, isFlag text = false)
    (takes : op.mode.takesValue = true) : following op.mode.name args = [modeText op arguments] := by
  have notJson : jsonFlag.name ≠ op.mode.name := by
    intro same
    have isMode := same_flag regular (json_found regular) List.mem_cons_self same
    rw [← isMode] at takes
    cases takes
  rw [following_built regular built plain values List.mem_cons_self takes,partsFor,
    List.filter_cons_of_pos (by simp),List.filter_append,filter_absent (mode_apart regular),
    List.filter_cons_of_neg (by simp [notJson])]
  rfl

theorem option_part (built : Built op arguments args targetFree)
    (plain : ∀ text, positionalText op arguments = some text → isFlag text = false)
    (values : ∀ part ∈ partsFor op arguments, ∀ text ∈ part.2, isFlag text = false) {arg : String}
    (member : arg ∈ args) (isOption : isFlag arg = true) : ∃ part ∈ partsFor op arguments, part.1.name = arg := by
  rw [built.written,← List.cons_append] at member
  rcases List.mem_append.mp member with isBare | isRendered
  · rw [bare_plain plain arg isBare] at isOption
    cases isOption
  · obtain ⟨part,isPart,isRendered⟩ := List.mem_flatMap.mp isRendered
    rcases List.mem_cons.mp isRendered with rfl | isValue
    · exact ⟨part,isPart,rfl⟩
    · rw [values part isPart arg (Option.mem_toList.mp isValue)] at isOption
      cases isOption

theorem part_option (built : Built op arguments args targetFree) {part : Part}
    (member : part ∈ partsFor op arguments) : part.1.name ∈ args := by
  rw [built.written]
  refine List.mem_cons_of_mem _ (List.mem_append_right _ ?_)
  exact List.mem_flatMap.mpr ⟨part,member,List.mem_cons_self⟩

theorem valueArg_of_following {flag text : String} (found : following flag args = [some text])
    (plain : isFlag text = false) : valueArg args flag = .ok (some text) := by
  simp [valueArg,found,givenValue,plain,Except.map]

end Reading

theorem valuesArg_texts {args texts : List String} {flag : String} (found : following flag args = texts.map some)
    (plain : ∀ text ∈ texts, isFlag text = false) : valuesArg args flag = .ok texts := by
  unfold valuesArg
  rw [found]
  clear found
  induction texts with
  | nil => rfl
  | cons text rest ih =>
    have first : givenValue flag (some text) = .ok text := by
      simp [givenValue,plain text List.mem_cons_self]
    rw [List.map_cons,List.mapM_cons,first,ih fun text member => plain text (List.mem_cons_of_mem _ member)]
    rfl

theorem scalar_text {flag : Flag} {value : Json} (isScalar : Scalar flag value) (notCount : flag.kind ≠ .count) :
    value = .text (scalarText value) := by
  unfold Scalar at isScalar
  rw [if_neg notCount] at isScalar
  obtain ⟨text,rfl⟩ := isScalar
  rfl

section Reads

variable {op : Operation} {arguments : Arguments} {args : List String} {targetFree : Bool} {flag : Flag}

theorem reads_switch (regular : Regular op) (built : Built op arguments args targetFree)
    (plain : ∀ text, positionalText op arguments = some text → isFlag text = false)
    (values : ∀ part ∈ partsFor op arguments, ∀ text ∈ part.2, isFlag text = false) (member : flag ∈ exposed op)
    (isSwitch : flag.kind = .switch) :
    flag.name ∈ args ↔ given arguments (key flag) = some (.bool true) := by
  have isFlag := List.mem_cons_of_mem op.mode ((exposed_sublist op).subset member)
  constructor
  · intro isArg
    obtain ⟨part,isPart,named⟩ := option_part built plain values isArg (regular.dashed flag isFlag)
    have same := same_flag regular (parts_flags regular built part isPart).1 isFlag named
    have own : part ∈ partsOf arguments flag := by
      rcases List.mem_cons.mp isPart with rfl | isPart
      · exact absurd (List.mem_map.mpr ⟨flag,member,named.symm⟩) (mode_apart regular)
      rcases List.mem_append.mp isPart with isPart | isJson
      · rw [← filter_present (exposed_distinct regular) member]
        exact List.mem_filter.mpr ⟨isPart,by simpa using named⟩
      · cases List.mem_singleton.mp isJson
        exact absurd (List.mem_map.mpr ⟨flag,member,named.symm⟩) (json_apart regular)
    unfold partsOf at own
    cases isGiven : given arguments (key flag) with
    | none => simp [isGiven] at own
    | some value =>
      simp only [isGiven,if_pos isSwitch] at own
      split at own
      · rename_i isTrue
        rw [isTrue]
      · cases own
  · intro isGiven
    have own : (flag,none) ∈ partsOf arguments flag := by simp [partsOf,isGiven,isSwitch]
    have isPart : (flag,none) ∈ partsFor op arguments :=
      List.mem_cons_of_mem _ (List.mem_append_left _ (List.mem_flatMap.mpr ⟨flag,member,own⟩))
    exact part_option built isPart

theorem exposed_plain (values : ∀ part ∈ partsFor op arguments, ∀ text ∈ part.2, isFlag text = false)
    (member : flag ∈ exposed op) : ∀ part ∈ partsOf arguments flag, ∀ text ∈ part.2, isFlag text = false :=
  fun part own => values part
    (List.mem_cons_of_mem _ (List.mem_append_left _ (List.mem_flatMap.mpr ⟨flag,member,own⟩)))

theorem reads_repeated (regular : Regular op) (built : Built op arguments args targetFree)
    (plain : ∀ text, positionalText op arguments = some text → isFlag text = false)
    (values : ∀ part ∈ partsFor op arguments, ∀ text ∈ part.2, isFlag text = false) (member : flag ∈ exposed op)
    (notSwitch : flag.kind ≠ .switch) (many : flag.repeatable = true) :
    ∃ texts, valuesArg args flag.name = .ok texts ∧ (given arguments (key flag) = none ∧ texts = [] ∨
      given arguments (key flag) = some (.array (texts.map Json.text))) := by
  have found := following_exposed regular built plain values member (by simpa [Flag.takesValue] using notSwitch)
  have ownPlain := exposed_plain values member
  cases isGiven : given arguments (key flag) with
  | none =>
    have none : partsOf arguments flag = [] := by simp [partsOf,isGiven]
    rw [none] at found
    exact ⟨[],valuesArg_texts found (by simp),Or.inl ⟨rfl,rfl⟩⟩
  | some value =>
    have typed := built.typed flag member value isGiven
    unfold Typed at typed
    rw [if_neg notSwitch,if_pos many] at typed
    obtain ⟨items,rfl,scalars⟩ := typed
    have notCount : flag.kind ≠ .count := fun isCount => by
      rw [regular.counts flag ((exposed_sublist op).subset member) isCount] at many
      cases many
    have own : partsOf arguments flag = (items.map scalarText).map fun text => (flag,some text) := by
      simp [partsOf,isGiven,notSwitch,many,Json.items,Json.asArray]
    rw [own] at found ownPlain
    refine ⟨items.map scalarText,valuesArg_texts ?_ ?_,Or.inr ?_⟩
    · rw [found]
      simp
    · intro text isText
      exact ownPlain _ (List.mem_map_of_mem isText) text rfl
    · have texts : items.map (fun item => Json.text (scalarText item)) = items.map id :=
        List.map_congr_left fun item isItem => (scalar_text (scalars item isItem) notCount).symm
      rw [List.map_map]
      exact congrArg (fun items => some (Json.array items)) (texts.trans (List.map_id items)).symm

theorem reads_value (regular : Regular op) (built : Built op arguments args targetFree)
    (plain : ∀ text, positionalText op arguments = some text → isFlag text = false)
    (values : ∀ part ∈ partsFor op arguments, ∀ text ∈ part.2, isFlag text = false) (member : flag ∈ exposed op)
    (notSwitch : flag.kind ≠ .switch) (once : flag.repeatable = false) :
    given arguments (key flag) = none ∧ valueArg args flag.name = .ok none ∨
      ∃ value, given arguments (key flag) = some value ∧ Scalar flag value ∧
        valueArg args flag.name = .ok (some (scalarText value)) := by
  have found := following_exposed regular built plain values member (by simpa [Flag.takesValue] using notSwitch)
  have ownPlain := exposed_plain values member
  cases isGiven : given arguments (key flag) with
  | none =>
    have none : partsOf arguments flag = [] := by simp [partsOf,isGiven]
    rw [none] at found
    exact Or.inl ⟨rfl,by simp [valueArg,found]⟩
  | some value =>
    have typed := built.typed flag member value isGiven
    unfold Typed at typed
    rw [if_neg notSwitch,if_neg (by simp [once])] at typed
    have own : partsOf arguments flag = [(flag,some (scalarText value))] := by
      simp [partsOf,isGiven,notSwitch,once]
    rw [own] at found ownPlain
    exact Or.inr ⟨value,rfl,typed,valueArg_of_following found (ownPlain _ (List.mem_singleton.mpr rfl) _ rfl)⟩

theorem reads_count (regular : Regular op) (built : Built op arguments args targetFree)
    (plain : ∀ text, positionalText op arguments = some text → isFlag text = false)
    (values : ∀ part ∈ partsFor op arguments, ∀ text ∈ part.2, isFlag text = false) (member : flag ∈ exposed op)
    (isCount : flag.kind = .count) (default : Nat) :
    given arguments (key flag) = none ∧ numberArg args flag.name default = .ok default ∨
      ∃ number : Nat, given arguments (key flag) = some (.number number) ∧
        numberArg args flag.name default = .ok number := by
  have once := regular.counts flag ((exposed_sublist op).subset member) isCount
  rcases reads_value regular built plain values member (by simp [isCount]) once with ⟨absent,isNone⟩ |
    ⟨value,isGiven,isScalar,isSome⟩
  · exact Or.inl ⟨absent,by simp [numberArg,isNone,bind,Except.bind]⟩
  · unfold Scalar at isScalar
    rw [if_pos isCount] at isScalar
    obtain ⟨number,small,rfl⟩ := isScalar
    have parsed : parseNumber (scalarText (.number number)) = some number := parseNumber_toString small
    exact Or.inr ⟨number,isGiven,by simp [numberArg,isSome,bind,Except.bind,parsed]⟩

theorem reads_options (built : Built op arguments args targetFree)
    (plain : ∀ text, positionalText op arguments = some text → isFlag text = false)
    (values : ∀ part ∈ partsFor op arguments, ∀ text ∈ part.2, isFlag text = false) {arg : String}
    (isArg : arg ∈ args) (isOption : isFlag arg = true) : arg = op.mode.name ∨ arg = "--json" ∨
      ∃ flag ∈ exposed op, flag.name = arg ∧ (given arguments (key flag)).isSome = true := by
  obtain ⟨part,isPart,named⟩ := option_part built plain values isArg isOption
  rcases List.mem_cons.mp isPart with rfl | isPart
  · exact Or.inl named.symm
  rcases List.mem_append.mp isPart with isPart | isJson
  · obtain ⟨flag,isExposed,own⟩ := List.mem_flatMap.mp isPart
    obtain ⟨isOwn,_,isGiven⟩ := partsOf_flag own
    exact Or.inr (Or.inr ⟨flag,isExposed,by rw [← isOwn]; exact named,isGiven⟩)
  · cases List.mem_singleton.mp isJson
    exact Or.inr (Or.inl named.symm)

theorem reads_file (built : Built op arguments args targetFree) :
    given arguments "file" = none ∧ targetFree = true ∨
      ∃ text, given arguments "file" = some (.text text) ∧ targetFree = false ∧ args[1]? = some (guardPath text) := by
  cases isFile : fileText arguments with
  | none => exact Or.inl ⟨by rw [built.file,isFile]; rfl,by rw [built.targetFree,isFile]; rfl⟩
  | some text =>
    refine Or.inr ⟨text,by rw [built.file,isFile]; rfl,by rw [built.targetFree,isFile]; rfl,?_⟩
    rw [built.written]
    simp [bare,isFile]

end Reads

-- A tool call whose command line is accepted reads back as it was given if and only if its
-- positional is not itself an option.
theorem argv_reads_back {name : String} {op : Operation} {arguments : Arguments} {args positionals : List String}
    {targetFree : Bool} (found : operation name = some op) (called : argv op arguments = .ok (args,targetFree))
    (accepted : validate op args (start targetFree) = .ok positionals) :
    ReadsBack op arguments args targetFree positionals ↔
      ∀ text, (positionalKey op).bind (given arguments) = some (.text text) → isFlag text = false := by
  have regular := operation_regular found
  have built := argv_ok regular called
  constructor
  · intro reads text isText
    have only : positionals.map Json.text = [Json.text text] := by rw [reads.positional,isText]; rfl
    have member : text ∈ positionals := by
      have isRead : Json.text text ∈ positionals.map Json.text := by rw [only]; exact List.mem_singleton.mpr rfl
      obtain ⟨other,isOther,same⟩ := List.mem_map.mp isRead
      cases same
      exact isOther
    exact validateFrom_positionals (validate_positionals accepted) text member
  · intro plainGiven
    have plain : ∀ text, positionalText op arguments = some text → isFlag text = false := by
      intro text isText
      refine plainGiven text ?_
      rw [built.positional,isText]
      rfl
    obtain ⟨isPositional,values⟩ := validate_parts regular built plain accepted
    refine ⟨built.known,reads_file built,?_,?_,?_,?_,?_,?_,?_⟩
    · rw [isPositional,built.positional]
      cases positionalText op arguments <;> rfl
    · refine ⟨part_option built List.mem_cons_self,?_⟩
      intro modeName named
      have takes := (Option.ite_none_right_eq_some.mp named).1
      obtain ⟨text,isText⟩ := Option.isSome_iff_exists.mp (built.modeTakes.trans takes)
      have followed := following_mode regular built plain values takes
      rw [isText] at followed
      refine ⟨text,by rw [built.mode modeName named,isText]; rfl,valueArg_of_following followed ?_⟩
      exact values _ List.mem_cons_self text isText
    · exact fun flag member isSwitch => reads_switch regular built plain values member isSwitch
    · exact fun flag member notSwitch many => reads_repeated regular built plain values member notSwitch many
    · exact fun flag member isCount default => reads_count regular built plain values member isCount default
    · intro flag member notSwitch notCount once
      rcases reads_value regular built plain values member notSwitch once with absent | ⟨value,isGiven,isScalar,isSome⟩
      · exact Or.inl absent
      · rw [scalar_text isScalar notCount] at isGiven
        exact Or.inr ⟨_,isGiven,isSome⟩
    · exact fun arg isArg isOption => reads_options built plain values isArg isOption

def cardCall : Arguments :=
  [("decompile",.bool false),("derived-from",.array [.text "sha256:00"]),("file",.text "-a.exe"),
    ("function",.text "0x401000"),("max-ssa-work",.number 10),("pcode",.bool true)]

def cardArgs : List String :=
  ["rsleigh","./-a.exe","0x401000","--card","--pcode","--max-ssa-work","10","--derived-from","sha256:00","--json"]

theorem argv_reads_back_card : ReadsBack cardOperation cardCall cardArgs false ["0x401000"] := by
  refine (argv_reads_back (show operation "card" = some cardOperation from rfl)
    (show argv cardOperation cardCall = .ok (cardArgs,false) by decide +kernel)
    (show validate cardOperation cardArgs (start false) = .ok ["0x401000"] by decide +kernel)).mpr ?_
  intro text isText
  have same : (positionalKey cardOperation).bind (given cardCall) = some (.text "0x401000") := by decide +kernel
  cases same.symm.trans isText
  decide

-- A query that is the name of a switch is read as the switch.
theorem query_read_as_option :
    ¬∀ (name : String) (op : Operation) (arguments : Arguments) (args positionals : List String) (targetFree : Bool),
      operation name = some op → argv op arguments = .ok (args,targetFree) →
        validate op args (start targetFree) = .ok positionals → ReadsBack op arguments args targetFree positionals := by
  intro all
  have reads := all "search" searchOperation [("file",.text "a.exe"),("query",.text "--api")]
    ["rsleigh","a.exe","--api","--search","--json"] [] false rfl (by decide +kernel) (by decide +kernel)
  exact absurd ((reads.switches (switch "--api") (by decide +kernel) rfl).mp (by decide)) (by decide +kernel)

end Rsleigh.Agent.ToolCall

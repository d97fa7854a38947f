import Rsleigh.Agent.ToolCall

namespace Rsleigh.Agent.ToolCall

open Fallible

-- The schema of an argument, without its description.
inductive PropertySchema where
  | text (pattern : Option String)
  | boolean
  | natural
  | array (items : PropertySchema)
  deriving DecidableEq

def property (flag : Flag) : PropertySchema :=
  let schema := match flag.kind with
    | .switch => .boolean
    | .count => .natural
    | .address => .text (some "^0[xX][0-9a-fA-F]+$")
    | _ => .text none
  if flag.repeatable then .array schema else schema

def properties (op : Operation) : List (String × PropertySchema) :=
  (if op.target = .none then [] else [("file",.text none)]) ++ (positionalKey op).toList.map (·,.text none) ++
    (modeKey op).toList.map (·,property op.mode) ++ (exposed op).map fun flag => (key flag,property flag)

def required (op : Operation) : List String :=
  (if op.target = .binary then ["file"] else []) ++ (positionalKey op).toList ++ (modeKey op).toList

-- What the schema allows, its patterns aside; an integer is one that fits into 64 bits.
def PropertySchema.admits : PropertySchema → Json → Prop
  | .text _, value => ∃ text, value = .text text
  | .boolean, value => ∃ given, value = .bool given
  | .natural, value => ∃ number : Nat, number < 2 ^ 64 ∧ value = .number number
  | .array items, value => ∃ values, value = .array values ∧ ∀ item ∈ values, items.admits item

-- No other arguments, those that are required, and each as its schema has it. A null is as good as nothing.
structure Admitted (op : Operation) (arguments : Arguments) : Prop where
  known : ∀ entry ∈ arguments, entry.1 ∈ (properties op).map Prod.fst
  required : ∀ name ∈ required op, (given arguments name).isSome
  admits : ∀ entry ∈ properties op, ∀ value, given arguments entry.1 = some value → entry.2.admits value

section Accepted

variable {op : Operation} {arguments : Arguments} {flag : Flag} {value : Json}

theorem property_admits (single : ¬(flag.kind = .switch ∧ flag.repeatable = true)) :
    (property flag).admits value ↔ Typed flag value := by
  unfold property Typed Scalar
  cases kind : flag.kind <;> cases many : flag.repeatable <;> simp_all [PropertySchema.admits]

theorem known_iff (name : String) : isKnown op name = true ↔ name ∈ (properties op).map Prod.fst := by
  unfold isKnown properties
  by_cases untargeted : op.target = .none <;> simp [untargeted,or_assoc,@eq_comm _ name "file"]

theorem scalar_some (isScalar : Scalar flag value) : ∃ text, scalar flag value = .ok text := by
  unfold Scalar at isScalar
  unfold scalar
  split_ifs at isScalar ⊢ with isCount
  · obtain ⟨number,small,rfl⟩ := isScalar
    have found : (Json.number number).asNatural = some number := by
      simpa [Json.asNatural] using small
    exact ⟨_,by rw [found]⟩
  · obtain ⟨text,rfl⟩ := isScalar
    exact ⟨text,rfl⟩

theorem pushItems_some {items : List Json} (scalars : ∀ item ∈ items, Scalar flag item) :
    ∀ written, ∃ out, pushItems flag written items = .ok out := by
  induction items with
  | nil => exact fun written => ⟨written,rfl⟩
  | cons item items ih =>
    intro written
    obtain ⟨text,isText⟩ := scalar_some (scalars item List.mem_cons_self)
    obtain ⟨out,isOut⟩ := ih (fun item member => scalars item (List.mem_cons_of_mem _ member)) (written ++ [flag.name,text])
    exact ⟨out,bind_ok.mpr ⟨text,isText,isOut⟩⟩

theorem pushValue_some (typed : value.isNull = false → Typed flag value) (written : List String) :
    ∃ out, pushValue written flag value = .ok out := by
  unfold pushValue
  cases isNull : value.isNull with
  | true => exact ⟨written,rfl⟩
  | false =>
    have typed := typed isNull
    unfold Typed at typed
    simp only [Bool.false_eq_true,if_false]
    split_ifs at typed ⊢
    · obtain ⟨given,rfl⟩ := typed
      cases given <;> exact ⟨_,rfl⟩
    · obtain ⟨items,rfl,scalars⟩ := typed
      exact pushItems_some scalars written
    · obtain ⟨text,isText⟩ := scalar_some typed
      exact ⟨_,bind_ok.mpr ⟨text,isText,rfl⟩⟩

theorem pushFlags_some {flags : List Flag}
    (typed : ∀ flag ∈ flags, ∀ value, given arguments (key flag) = some value → Typed flag value) :
    ∀ written, ∃ out, pushFlags arguments written flags = .ok out := by
  induction flags with
  | nil => exact fun written => ⟨written,rfl⟩
  | cons flag flags ih =>
    intro written
    have later := ih fun other member => typed other (List.mem_cons_of_mem _ member)
    unfold pushFlags
    cases found : Json.field (key flag) arguments with
    | none => exact later written
    | some value =>
      obtain ⟨middle,pushed⟩ := pushValue_some (fun notNull => typed flag List.mem_cons_self value
        (by simp [given,found,notNull])) written
      obtain ⟨out,isOut⟩ := later middle
      exact ⟨out,bind_ok.mpr ⟨middle,pushed,isOut⟩⟩

theorem textArgument_some {name : String}
    (typed : ∀ value, given arguments name = some value → ∃ text, value = .text text) :
    textArgument arguments name = .ok ((given arguments name).bind Json.asText) := by
  unfold textArgument
  cases isGiven : given arguments name with
  | none => rfl
  | some value =>
    obtain ⟨text,rfl⟩ := typed value isGiven
    rfl

theorem pushPositional_some (written : List String)
    (typed : ∀ name, positionalKey op = some name → ∃ text, given arguments name = some (.text text)) :
    ∃ out, pushPositional arguments written (positionalKey op) = .ok out := by
  cases named : positionalKey op with
  | none => exact ⟨written,rfl⟩
  | some name =>
    obtain ⟨text,isGiven⟩ := typed name named
    have isText : textArgument arguments name = .ok (some text) := by
      unfold textArgument
      rw [isGiven]
    exact ⟨_,bind_ok.mpr ⟨some text,isText,rfl⟩⟩

theorem pushMode_some (written : List String)
    (typed : ∀ name, modeKey op = some name → ∃ value, given arguments name = some value ∧ Typed op.mode value) :
    ∃ out, pushMode op arguments written = .ok out := by
  unfold pushMode
  cases named : modeKey op with
  | none => exact ⟨_,rfl⟩
  | some name =>
    obtain ⟨value,isGiven,isTyped⟩ := typed name named
    obtain ⟨pair,pushed⟩ := pushValue_some (fun _ => isTyped) []
    simp only [isGiven]
    exact ⟨_,bind_ok.mpr ⟨pair,pushed,rfl⟩⟩

theorem argv_required {built : List String × Bool} (ok : argv op arguments = .ok built) : ∀ name ∈ required op, (given arguments name).isSome := by
  unfold argv at ok
  split at ok
  · cases ok
  · obtain ⟨file,isFile,ok⟩ := bind_ok.mp ok
    by_cases missing : op.target = .binary ∧ file = none
    · simp only [if_pos missing] at ok
      cases ok
    simp only [if_neg missing] at ok
    obtain ⟨_,positional,ok⟩ := bind_ok.mp ok
    obtain ⟨_,mode,_⟩ := bind_ok.mp ok
    intro name member
    unfold required at member
    rcases List.mem_append.mp member with member | isMode
    · rcases List.mem_append.mp member with isTarget | isPositional
      · split_ifs at isTarget with binary
        · rw [List.mem_singleton.mp isTarget,textArgument_ok isFile]
          cases file with
          | none => exact absurd ⟨binary,rfl⟩ missing
          | some text => rfl
        · cases isTarget
      · rw [Option.mem_toList] at isPositional
        rw [isPositional] at positional
        obtain ⟨text,isText,positional⟩ := bind_ok.mp positional
        rw [textArgument_ok isText]
        cases text with
        | none => cases positional
        | some text => rfl
    · rw [Option.mem_toList] at isMode
      unfold pushMode at mode
      rw [isMode] at mode
      cases isGiven : given arguments name with
      | none =>
        simp only [isGiven] at mode
        cases mode
      | some value => rfl

theorem mem_properties (regular : Regular op) (entry : String × PropertySchema) : entry ∈ properties op ↔
    entry = ("file",.text none) ∨ (∃ name, positionalKey op = some name ∧ entry = (name,.text none)) ∨
      (∃ name, modeKey op = some name ∧ entry = (name,property op.mode)) ∨
        ∃ flag ∈ exposed op, entry = (key flag,property flag) := by
  unfold properties
  simp [regular.text,@eq_comm _ entry]

variable (regular : Regular op) (single : ∀ flag ∈ op.allFlags, ¬(flag.kind = .switch ∧ flag.repeatable = true))

include regular single

theorem admitted_of_argv {built : List String × Bool} (ok : argv op arguments = .ok built) : Admitted op arguments := by
  have isBuilt := argv_ok regular ok
  refine ⟨fun entry member => (known_iff entry.1).mp (isBuilt.known entry member),argv_required ok,?_⟩
  intro entry member value isGiven
  rcases (mem_properties regular entry).mp member with rfl | ⟨name,isName,rfl⟩ | ⟨name,isName,rfl⟩ | ⟨flag,isFlag,rfl⟩
  · obtain ⟨text,_,isText⟩ := Option.map_eq_some_iff.mp (isBuilt.file.symm.trans isGiven)
    exact ⟨text,isText.symm⟩
  · have positional := isBuilt.positional
    rw [isName,Option.bind_some,isGiven] at positional
    obtain ⟨text,_,isText⟩ := Option.map_eq_some_iff.mp positional.symm
    exact ⟨text,isText.symm⟩
  · obtain ⟨text,_,isText⟩ := Option.map_eq_some_iff.mp ((isBuilt.mode name isName).symm.trans isGiven)
    have notSwitch : op.mode.kind ≠ .switch := by
      simpa [Flag.takesValue] using (Option.ite_none_right_eq_some.mp isName).1
    refine (property_admits (single op.mode List.mem_cons_self)).mpr ?_
    simp [Typed,Scalar,notSwitch,regular.mode.1,regular.mode.2,← isText]
  · refine (property_admits (single flag ?_)).mpr (isBuilt.typed flag isFlag value isGiven)
    exact List.mem_cons_of_mem _ ((exposed_sublist op).subset isFlag)

theorem argv_of_admitted (admitted : Admitted op arguments) : ∃ built, argv op arguments = .ok built := by
  have present {name : String} (member : name ∈ required op) : ∃ value, given arguments name = some value :=
    Option.isSome_iff_exists.mp (admitted.required name member)
  have fileText := admitted.admits _ ((mem_properties regular ("file",.text none)).mpr (.inl rfl))
  have noExtra : (arguments.find? fun entry => !isKnown op entry.1) = none := by
    rw [List.find?_eq_none]
    intro entry member
    rw [(known_iff entry.1).mpr (admitted.known entry member)]
    exact Bool.false_ne_true
  have notMissing : ¬(op.target = .binary ∧ (given arguments "file").bind Json.asText = none) := by
    rintro ⟨binary,absent⟩
    obtain ⟨value,isGiven⟩ := present (show "file" ∈ required op by simp [required,binary])
    obtain ⟨text,rfl⟩ := fileText value isGiven
    rw [isGiven] at absent
    cases absent
  obtain ⟨withPositional,positional⟩ := @pushPositional_some op arguments
    ("rsleigh" :: (((given arguments "file").bind Json.asText).map guardPath).toList) fun name isName => by
      obtain ⟨value,isGiven⟩ := present (show name ∈ required op by simp [required,isName])
      obtain ⟨text,rfl⟩ := admitted.admits (name,.text none)
        ((mem_properties regular _).mpr (.inr (.inl ⟨name,isName,rfl⟩))) value isGiven
      exact ⟨text,isGiven⟩
  obtain ⟨withMode,mode⟩ := @pushMode_some op arguments withPositional fun name isName => by
    obtain ⟨value,isGiven⟩ := present (show name ∈ required op by simp [required,isName])
    refine ⟨value,isGiven,(property_admits (single op.mode List.mem_cons_self)).mp ?_⟩
    exact admitted.admits (name,_) ((mem_properties regular _).mpr (.inr (.inr (.inl ⟨name,isName,rfl⟩)))) value isGiven
  obtain ⟨withFlags,flags⟩ := @pushFlags_some arguments (exposed op) (fun flag member value isGiven => by
    refine (property_admits (single flag (List.mem_cons_of_mem _ ((exposed_sublist op).subset member)))).mp ?_
    exact admitted.admits (key flag,_) ((mem_properties regular _).mpr (.inr (.inr (.inr ⟨flag,member,rfl⟩)))) value isGiven)
    withMode
  refine ⟨(if (op.flag "--json").isSome then withFlags ++ ["--json"] else withFlags,
    ((given arguments "file").bind Json.asText).isNone),?_⟩
  unfold argv
  rw [noExtra]
  refine bind_ok.mpr ⟨_,textArgument_some fileText,?_⟩
  simp only [if_neg notMissing]
  exact bind_ok.mpr ⟨withPositional,positional,bind_ok.mpr ⟨withMode,mode,bind_ok.mpr ⟨withFlags,flags,rfl⟩⟩⟩

end Accepted

-- A call is turned into a command line exactly where its arguments are as the published schema has them.
theorem argv_admitted {name : String} {op : Operation} (found : operation name = some op) (arguments : Arguments) :
    ((properties op).map Prod.fst).Nodup ∧ ((∃ built, argv op arguments = .ok built) ↔ Admitted op arguments) := by
  have checked : ∀ op ∈ operations, (((properties op).map Prod.fst).Nodup ∧
      ∀ flag ∈ op.allFlags, ¬(flag.kind = .switch ∧ flag.repeatable = true)) ∨ tools.contains op.id = false := by
    decide +kernel
  obtain ⟨isTool,isOp⟩ := Option.ite_none_right_eq_some.mp found
  have named : op.id = name := by simpa using List.find?_some isOp
  obtain ⟨distinct,single⟩ := (checked op (List.mem_of_find?_eq_some isOp)).resolve_right
    (by rw [named,isTool]; simp)
  have regular := operation_regular found
  exact ⟨distinct,fun ⟨_,ok⟩ => admitted_of_argv regular single ok,argv_of_admitted regular single⟩

theorem argv_admitted_card : Admitted cardOperation cardCall :=
  ((@argv_admitted "card" cardOperation rfl cardCall).2).mp
    ⟨_,show argv cardOperation cardCall = .ok (cardArgs,false) by decide +kernel⟩

end Rsleigh.Agent.ToolCall

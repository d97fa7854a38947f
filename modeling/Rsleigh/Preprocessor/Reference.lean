import Rsleigh.Preprocessor.Positions

namespace Rsleigh.Preprocessor

open Parsing Syntax

-- The directives that belong to no conditional.
inductive Command where
  | define (name : Text) (value : Option DefineData)
  | undefine (name : Text)
  | include_ (file : Text)

def Command.macroLine : Command → MacroLine
  | .define name value => .define name value
  | .undefine name => .undefine name
  | .include_ file => .include_ file

mutual

-- A file whose conditionals are properly nested.
inductive Items where
  | nil
  | tokens (line : TokenLine) (rest : Items)
  | command (command : Command) (line : DirectiveLine command.macroLine) (rest : Items)
  | group (cond : IfCheck) (line : DirectiveLine (.if_ cond)) (body : Items) (branches : Branches) (rest : Items)

-- What comes after a branch, up to the end of its group.
inductive Branches where
  | endIf (line : DirectiveLine .endIf)
  | else_ (line : DirectiveLine .else_) (body : Items) (last : DirectiveLine .endIf)
  | elIf (cond : IfCheck) (line : DirectiveLine (.elIf cond)) (body : Items) (rest : Branches)

end

mutual

def Items.lines : Items → List Line
  | .nil => []
  | .tokens line rest => .tokens line :: rest.lines
  | .command _ line rest => .directive _ line :: rest.lines
  | .group _ line body branches rest => .directive _ line :: (body.lines ++ (branches.lines ++ rest.lines))

def Branches.lines : Branches → List Line
  | .endIf line => [.directive _ line]
  | .else_ line body last => .directive _ line :: (body.lines ++ [.directive _ last])
  | .elIf _ line body rest => .directive _ line :: (body.lines ++ rest.lines)

end

-- The meaning of a file: of each group the first branch whose condition holds, and of the others nothing.
abbrev Output := Except Failure (List TokenType × PreProcessorState)

def emit (tokens : List TokenType) (output : Output) : Output :=
  output.map fun (later, state) => (tokens ++ later, state)

def macroTokens : Nat → Text → Except Failure (List TokenType)
  | 0, _ => .error .outOfFuel
  | fuel + 1, data => do
    let (token, data) ← DrainingMacro.parse data
    match token with
    | none => return []
    | some token => do
      let tokens ← macroTokens fuel data
      return token :: tokens

def itemTokens (fuel : Nat) (state : PreProcessorState) : LineItem → Except Failure (List TokenType)
  | .token token => .ok [token]
  | .expansion name =>
    match state name with
    | none => .error (.error .expandingUndefined)
    | some none => .error (.error .expandingEmpty)
    | some (some value) => macroTokens fuel value

def lineTokens (fuel : Nat) (state : PreProcessorState) : List LineItem → Except Failure (List TokenType)
  | [] => .ok []
  | item :: items => do
    let tokens ← itemTokens fuel state item
    let later ← lineTokens fuel state items
    return tokens ++ later

def Command.process (included : Text → PreProcessorState → Output) (state : PreProcessorState) : Command → Output
  | .define name value => do
    let state ← state.setDefine name value
    return ([], state)
  | .undefine name => do
    let state ← state.delValue name
    return ([], state)
  | .include_ file => included file state

mutual

def Items.process (included : Text → PreProcessorState → Output) (fuel : Nat) :
    Items → PreProcessorState → Output
  | .nil, state => .ok ([], state)
  | .tokens line rest, state => do
    let tokens ← lineTokens fuel state line.items
    emit tokens (rest.process included fuel state)
  | .command command _ rest, state => do
    let (tokens, state) ← command.process included state
    emit tokens (rest.process included fuel state)
  | .group cond _ body branches rest, state => do
    let cond ← checkCond state cond
    let (tokens, state) ← if cond then body.process included fuel state else branches.process included fuel state
    emit tokens (rest.process included fuel state)

def Branches.process (included : Text → PreProcessorState → Output) (fuel : Nat) :
    Branches → PreProcessorState → Output
  | .endIf _, state => .ok ([], state)
  | .else_ _ body _, state => body.process included fuel state
  | .elIf cond _ body rest, state => do
    let cond ← checkCond state cond
    if cond then body.process included fuel state else rest.process included fuel state

end

-- `fuel` bounds how deep files include each other.
def processFile (trees : Text → Option Items) : Nat → Text → PreProcessorState → Output
  | 0, _, _ => .error .outOfFuel
  | fuel + 1, path, state =>
    match trees path with
    | none => .error (.error .file)
    | some items => items.process (processFile trees fuel) fuel state

-- The conditionals that are open after some lines.
def nesting : Nat → List Line → Option Nat
  | depth, [] => some depth
  | depth, .tokens _ :: rest => nesting depth rest
  | depth, .directive macroLine _ :: rest =>
    match macroLine, depth with
    | .define _ _, depth | .undefine _, depth | .include_ _, depth => nesting depth rest
    | .if_ _, depth => nesting (depth + 1) rest
    | .endIf, depth + 1 => nesting depth rest
    | .elIf _, depth + 1 | .else_, depth + 1 => nesting (depth + 1) rest
    | .endIf, 0 | .elIf _, 0 | .else_, 0 => none

-- No `@endif`, `@else` or `@elif` is outside of a group, and no group is left open.
def Balanced (ls : List Line) : Prop :=
  nesting 0 ls = some 0

theorem findBlock_command (f : IfBorders → Bool) (counter : Nat) {command : Command}
    (line : DirectiveLine command.macroLine) (rest : List Line) :
    findBlock f counter (.directive _ line :: rest) = findBlock f counter rest := by
  have none : (Line.directive _ line).border = none := by cases command <;> rfl
  rw [findBlock,none]

mutual

theorem findBlock_items (f : IfBorders → Bool) : (items : Items) → (counter : Nat) → (ls : List Line) →
    findBlock f counter (items.lines ++ ls) = findBlock f counter ls
  | .nil, counter, ls => by
    rw [Items.lines,List.nil_append]
  | .tokens line rest, counter, ls => by
    rw [Items.lines,List.cons_append,findBlock]
    exact findBlock_items f rest counter ls
  | .command command line rest, counter, ls => by
    rw [Items.lines,List.cons_append,findBlock_command]
    exact findBlock_items f rest counter ls
  | .group cond line body branches rest, counter, ls => by
    rw [Items.lines,List.cons_append,List.append_assoc,List.append_assoc]
    calc
      findBlock f counter (.directive _ line :: (body.lines ++ (branches.lines ++ (rest.lines ++ ls))))
          = findBlock f (counter + 1) (body.lines ++ (branches.lines ++ (rest.lines ++ ls))) := by
            cases counter <;> rfl
      _ = findBlock f (counter + 1) (branches.lines ++ (rest.lines ++ ls)) := findBlock_items f body _ _
      _ = findBlock f counter (rest.lines ++ ls) := findBlock_branches f branches counter _
      _ = findBlock f counter ls := findBlock_items f rest counter ls

theorem findBlock_branches (f : IfBorders → Bool) : (branches : Branches) → (counter : Nat) → (ls : List Line) →
    findBlock f (counter + 1) (branches.lines ++ ls) = findBlock f counter ls
  | .endIf line, counter, ls => by
    rw [Branches.lines,List.singleton_append]
    rfl
  | .else_ line body last, counter, ls => by
    rw [Branches.lines,List.cons_append,List.append_assoc]
    calc
      findBlock f (counter + 1) (.directive _ line :: (body.lines ++ ([.directive _ last] ++ ls)))
          = findBlock f (counter + 1) (body.lines ++ ([.directive _ last] ++ ls)) := rfl
      _ = findBlock f (counter + 1) ([.directive _ last] ++ ls) := findBlock_items f body _ _
      _ = findBlock f counter ls := rfl
  | .elIf cond line body rest, counter, ls => by
    rw [Branches.lines,List.cons_append,List.append_assoc]
    calc
      findBlock f (counter + 1) (.directive _ line :: (body.lines ++ (rest.lines ++ ls)))
          = findBlock f (counter + 1) (body.lines ++ (rest.lines ++ ls)) := rfl
      _ = findBlock f (counter + 1) (rest.lines ++ ls) := findBlock_items f body _ _
      _ = findBlock f counter ls := findBlock_branches f rest counter ls

end

-- A search that passes over branches ends at the `@endif` of the group.
theorem findBlock_endIf : (branches : Branches) → (ls : List Line) →
    ∃ last : DirectiveLine .endIf,
      findBlock (fun block => block = .endIf) 0 (branches.lines ++ ls) = some (.endIf,.directive _ last :: ls)
  | .endIf line, ls => ⟨line,rfl⟩
  | .else_ line body last, ls => by
    refine ⟨last,?_⟩
    rw [Branches.lines,List.cons_append,List.append_assoc]
    calc
      findBlock (fun block => block = .endIf) 0 (.directive _ line :: (body.lines ++ ([.directive _ last] ++ ls)))
          = findBlock (fun block => block = .endIf) 0 (body.lines ++ ([.directive _ last] ++ ls)) := rfl
      _ = findBlock (fun block => block = .endIf) 0 ([.directive _ last] ++ ls) := findBlock_items _ body _ _
      _ = some (.endIf,.directive _ last :: ls) := rfl
  | .elIf cond line body rest, ls => by
    obtain ⟨last,found⟩ := findBlock_endIf rest ls
    refine ⟨last,?_⟩
    rw [Branches.lines,List.cons_append,List.append_assoc]
    calc
      findBlock (fun block => block = .endIf) 0 (.directive _ line :: (body.lines ++ (rest.lines ++ ls)))
          = findBlock (fun block => block = .endIf) 0 (body.lines ++ (rest.lines ++ ls)) := rfl
      _ = findBlock (fun block => block = .endIf) 0 (rest.lines ++ ls) := findBlock_items _ body _ _
      _ = some (.endIf,.directive _ last :: ls) := found

end Rsleigh.Preprocessor

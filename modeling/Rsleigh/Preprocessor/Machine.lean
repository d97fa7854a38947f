import Rsleigh.Preprocessor.Text
import Rsleigh.Lib.Fallible

namespace Rsleigh.Preprocessor

open Parsing Syntax

-- preprocessor/mod.rs. The locations that errors carry are left out.
inductive PreprocessorError where
  | file
  | comparingUndefined
  | comparingEmpty
  | expandingUndefined
  | expandingEmpty
  | aliasUndefined
  | aliasEmpty
  | deleteUndefined
  | preprocessorToken
  | invalidEndIf
  | notFoundEndIf
  deriving DecidableEq

-- `outOfFuel` stands for files that include each other without end.
inductive Failure where
  | error (error : PreprocessorError)
  | unreachable
  | outOfFuel
  deriving DecidableEq

-- Each name that is defined, with its value if it has one.
abbrev PreProcessorState := Text → Option (Option Text)

namespace PreProcessorState

def exists_ (state : PreProcessorState) (name : Text) : Bool :=
  (state name).isSome

def setDefine (state : PreProcessorState) (name : Text) (value : Option DefineData) :
    Except Failure PreProcessorState :=
  match value with
  | none => .ok fun other => if other = name then some none else state other
  | some (.value value) => .ok fun other => if other = name then some (some value) else state other
  | some (.alias target) =>
    match state target with
    | none => .error (.error .aliasUndefined)
    | some none => .error (.error .aliasEmpty)
    | some (some value) => .ok fun other => if other = name then some (some value) else state other

-- An undefined name cannot be deleted.
def delValue (state : PreProcessorState) (name : Text) : Except Failure PreProcessorState :=
  if state.exists_ name then .ok fun other => if other = name then none else state other
  else .error (.error .deleteUndefined)

end PreProcessorState

-- Both sides of an operator are evaluated.
def checkCond (state : PreProcessorState) : IfCheck → Except Failure Bool
  | .defined name => .ok (state.exists_ name)
  | .notDefined name => .ok !(state.exists_ name)
  | .cmp name op value =>
    match state name with
    | none => .error (.error .comparingUndefined)
    | some none => .error (.error .comparingEmpty)
    | some (some defined) => .ok (op.cmp value defined)
  | .op left op right => do
    let left ← checkCond state left
    let right ← checkCond state right
    return op.check left right

inductive IfStatus where
  | if_
  | ifElse
  | else_
  deriving DecidableEq

inductive IfBorders where
  | if_
  | ifDef
  | ifNDef
  | ifElse
  | else_
  | endIf
  deriving DecidableEq

-- The text of a file that is left, and how much of it is consumed.
structure DrainingFile where
  ifStack : List IfStatus
  data : Text
  position : Nat

def DrainingFile.new (data : Text) : DrainingFile where
  ifStack := []
  data := data
  position := 0

-- The lines of a text, each with the text that starts at it.
def linesFrom (start line : Text) : Text → List (Text × Text)
  | [] => if start.isEmpty then [] else [(if line.getLast? = some '\r' then line.dropLast else line, start)]
  | c :: rest =>
    if c = '\n' then
      (if line.getLast? = some '\r' then line.dropLast else line, start) :: linesFrom rest [] rest
    else linesFrom start (line ++ [c]) rest

def lines (data : Text) : List (Text × Text) :=
  linesFrom data [] data

-- The line is a directive of a conditional: `@ifdef` starts with `@if` too.
def border (line : Text) : Option IfBorders :=
  (alt [
    map (pair space0 (word "@if")) fun _ => IfBorders.if_,
    map (pair space0 (word "@ifdef")) fun _ => IfBorders.ifDef,
    map (pair space0 (word "@ifndef")) fun _ => IfBorders.ifNDef,
    map (pair space0 (word "@elif")) fun _ => IfBorders.ifElse,
    map (pair space0 (word "@else")) fun _ => IfBorders.else_,
    map (pair space0 (word "@endif")) fun _ => IfBorders.endIf] line).map (·.1)

def findIfBlock (f : IfBorders → Bool) : Nat → List (Text × Text) → Option (IfBorders × Text)
  | _, [] => none
  | counter, (line, start) :: rest =>
    match border line with
    | none => findIfBlock f counter rest
    | some found =>
      match counter, found with
      | counter, .if_ | counter, .ifDef | counter, .ifNDef => findIfBlock f (counter + 1) rest
      | counter + 1, .endIf => findIfBlock f counter rest
      | counter + 1, .ifElse | counter + 1, .else_ => findIfBlock f (counter + 1) rest
      | 0, block => if f block then some (block, start) else findIfBlock f 0 rest

inductive Body where
  | macro_ (line : MacroLine)
  | expansion (name : Text)
  | token (token : TokenType)
  | end_

inductive Product where
  | token (token : TokenType)
  | file (file : Text)
  | expand (name : Text)
  | end_

namespace DrainingFile

def nomIt (file : DrainingFile) (nom : TextParser α) : Except Failure (α × DrainingFile) :=
  match nom file.data with
  | none => .error (.error .preprocessorToken)
  | some (value, rest) =>
    .ok (value, { file with data := rest, position := file.position + (file.data.length - rest.length) })

def nextIfBlock (file : DrainingFile) (f : IfBorders → Bool) : Except Failure (IfBorders × DrainingFile) :=
  match findIfBlock f 0 (lines file.data) with
  | none => .error (.error .notFoundEndIf)
  | some (block, start) =>
    .ok (block, { file with data := start, position := file.position + (file.data.length - start.length) })

def push (file : DrainingFile) (status : IfStatus) : DrainingFile :=
  { file with ifStack := status :: file.ifStack }

def pop (file : DrainingFile) : DrainingFile :=
  { file with ifStack := file.ifStack.tail }

-- Finds the next block and checks if it is entered.
def searchIfBlock (state : PreProcessorState) : Nat → DrainingFile → Except Failure DrainingFile
  | 0, _ => .error .outOfFuel
  | fuel + 1, file => do
    let (_, file) ← file.nextIfBlock fun _ => true
    let (macroLine, file) ← file.nomIt MacroLine.parse
    match macroLine with
    | .elIf cond =>
      if ← checkCond state cond then return file.push .ifElse
      else searchIfBlock state fuel file
    | .else_ => return file.push .else_
    | .endIf => return file
    | .define _ _ | .undefine _ | .include_ _ | .if_ _ => .error .unreachable

def enterIfBlock (fuel : Nat) (cond : Bool) (state : PreProcessorState) (file : DrainingFile) :
    Except Failure DrainingFile :=
  if cond then .ok (file.push .if_) else searchIfBlock state fuel file

def parseMacroLine (file : DrainingFile) : Option (Body × DrainingFile) :=
  match file.nomIt MacroLine.parse with
  | .ok (macroLine, file) => some (.macro_ macroLine, file)
  | .error _ => none

def parseBodyLoop : Nat → DrainingFile → Except Failure (Body × DrainingFile)
  | 0, _ => .error .outOfFuel
  | fuel + 1, file =>
    match file.nomIt emptySpace0 with
    | .error _ => .error .unreachable
    | .ok (_, file) =>
      match file.nomIt lineEnding with
      | .ok (_, file) =>
        match file.parseMacroLine with
        | some body => .ok body
        | none => parseBodyLoop fuel file
      | .error _ =>
        if file.data.isEmpty then .ok (.end_, file)
        else
          match file.nomIt expansion with
          | .ok (name, file) => .ok (.expansion name, file)
          | .error _ => do
            let (token, file) ← file.nomIt TokenType.parse
            return (.token token, file)

-- A macro is on a new line, or the first thing in the file.
def parseBody (fuel : Nat) (file : DrainingFile) : Except Failure (Body × DrainingFile) :=
  if file.position = 0 then
    match file.parseMacroLine with
    | some body => .ok body
    | none => parseBodyLoop fuel file
  else parseBodyLoop fuel file

def parse : Nat → DrainingFile → PreProcessorState → Except Failure (Product × DrainingFile × PreProcessorState)
  | 0, _, _ => .error .outOfFuel
  | fuel + 1, file, state => do
    let status := file.ifStack.head?
    let (nextBlock, file) ← file.parseBody (fuel + 1)
    match status, nextBlock with
    | none, .end_ => return (.end_, file, state)
    | some _, .end_ => .error (.error .notFoundEndIf)
    | _, .token token => return (.token token, file, state)
    | _, .expansion name => return (.expand name, file, state)
    | _, .macro_ (.include_ included) => return (.file included, file, state)
    | _, .macro_ (.define name value) => do
      let state ← state.setDefine name value
      parse fuel file state
    | _, .macro_ (.undefine name) => do
      let state ← state.delValue name
      parse fuel file state
    | none, .macro_ (.elIf _) | none, .macro_ .else_ | none, .macro_ .endIf
    | some .else_, .macro_ (.elIf _) | some .else_, .macro_ .else_ => .error (.error .invalidEndIf)
    | some _, .macro_ .endIf => parse fuel file.pop state
    | _, .macro_ (.if_ cond) => do
      let cond ← checkCond state cond
      let file ← file.enterIfBlock (fuel + 1) cond state
      parse fuel file state
    | some .if_, .macro_ (.elIf _) | some .if_, .macro_ .else_
    | some .ifElse, .macro_ (.elIf _) | some .ifElse, .macro_ .else_ => do
      let (_, file) ← file.nextIfBlock fun block => block = .endIf
      let (macroLine, file) ← file.nomIt MacroLine.parse
      match macroLine with
      | .endIf => parse fuel file.pop state
      | _ => .error .unreachable

end DrainingFile

-- The value of a macro that is expanded: it is not expanded again.
def DrainingMacro.parse (data : Text) : Except Failure (Option TokenType × Text) :=
  let data := data.dropWhile isSpace
  if data.isEmpty then .ok (none, data)
  else
    match TokenType.parse data with
    | none => .error (.error .preprocessorToken)
    | some (token, rest) => .ok (some token, rest)

inductive DrainingSource where
  | file (file : DrainingFile)
  | macro_ (data : Text)

-- The last of the sources is the first of the list. `readFile` finds an included file from the root path.
structure FilePreProcessor where
  fileStack : List DrainingSource
  defines : PreProcessorState

namespace FilePreProcessor

variable (readFile : Text → Option Text)

def openFile (path : Text) : Except Failure DrainingSource :=
  match readFile path with
  | none => .error (.error .file)
  | some data => .ok (.file (.new data))

def openMacro (state : PreProcessorState) (name : Text) : Except Failure DrainingSource :=
  match state name with
  | none => .error (.error .expandingUndefined)
  | some none => .error (.error .expandingEmpty)
  | some (some value) => .ok (.macro_ value)

def parse : Nat → FilePreProcessor → Except Failure (Option TokenType × FilePreProcessor)
  | 0, _ => .error .outOfFuel
  | fuel + 1, processor =>
    match processor.fileStack with
    | [] => .ok (none, processor)
    | .macro_ data :: below => do
      let (token, data) ← DrainingMacro.parse data
      match token with
      | some token => return (some token, { processor with fileStack := .macro_ data :: below })
      | none => parse fuel { processor with fileStack := below }
    | .file file :: below => do
      let (product, file, defines) ← file.parse (fuel + 1) processor.defines
      match product with
      | .end_ => parse fuel { fileStack := below, defines := defines }
      | .token token => return (some token, { fileStack := .file file :: below, defines := defines })
      | .file path => do
        let source ← openFile readFile path
        parse fuel { fileStack := source :: .file file :: below, defines := defines }
      | .expand name => do
        let source ← openMacro defines name
        parse fuel { fileStack := source :: .file file :: below, defines := defines }

-- What an iteration over all of the tokens gives, with the definitions at its end.
def collect : Nat → FilePreProcessor → Except Failure (List TokenType × PreProcessorState)
  | 0, _ => .error .outOfFuel
  | fuel + 1, processor => do
    let (token, processor) ← parse readFile (fuel + 1) processor
    match token with
    | none => return ([], processor.defines)
    | some token => do
      let (tokens, defines) ← collect fuel processor
      return (token :: tokens, defines)

def new (path : Text) : Except Failure FilePreProcessor := do
  let source ← openFile readFile path
  return { fileStack := [source], defines := fun _ => none }

-- All of the tokens of a file.
def process (fuel : Nat) (path : Text) : Except Failure (List TokenType × PreProcessorState) := do
  let processor ← new readFile path
  collect readFile fuel processor

end FilePreProcessor

end Rsleigh.Preprocessor

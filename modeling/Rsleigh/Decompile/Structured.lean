import Rsleigh.Decompile.Ir

namespace Rsleigh.Decompile

-- rsleigh-decompile/src/ir.rs. The value of a case is an `i64`.
inductive StructuredStmt where
  | assign (lhs rhs : VarId)
  | store (addr val : VarId)
  | call (target : CallTarget) (args : List VarId) (out : Option VarId)
  | ret (value : Option VarId)
  | ifElse (cond : VarId) (thenBody elseBody : List StructuredStmt)
  | while_ (cond : VarId) (negate : Bool) (body : List StructuredStmt)
  | doWhile (cond : VarId) (negate : Bool) (body : List StructuredStmt)
  | switch (expr : VarId) (cases : List (List Int × List StructuredStmt)) (default : List StructuredStmt)
  | break_
  | continue_
  | goto (addr : UInt64)
  | label (addr : UInt64)

-- What the statements mean is given by a machine: its tests, and the events that its steps emit.
structure Machine (State Event Value : Type) where
  test : VarId → State → Bool
  value : VarId → State → Int
  result : Option VarId → State → Value
  assign : VarId → VarId → State → Event × State
  store : VarId → VarId → State → Event × State
  call : CallTarget → List VarId → Option VarId → State → Event × State
  -- Whether a break ends the switch that it stands in, or the loop around it.
  breakEndsSwitch : Bool

-- How control leaves a list of statements before its end.
inductive Exit (Value : Type) where
  | ret (value : Value)
  | break_
  | continue_
  | goto (addr : UInt64)
  deriving DecidableEq

-- `spent` stands for a run that is cut off within a loop.
inductive Outcome (Value : Type) where
  | next
  | exit (exit : Exit Value)
  | spent
  deriving DecidableEq

structure Ran (State Event Value : Type) where
  events : List Event
  outcome : Outcome Value
  state : State

-- Statements as functions of the number of rounds that each loop may take.
abbrev Meaning (State Event Value : Type) := Nat → State → Ran State Event Value

namespace Ran

def after (ran : Ran State Event Value) (next : State → Ran State Event Value) : Ran State Event Value :=
  let rest := next ran.state
  ⟨ran.events ++ rest.events, rest.outcome, rest.state⟩

def bind (ran : Ran State Event Value) (next : State → Ran State Event Value) : Ran State Event Value :=
  match ran.outcome with
  | .next => ran.after next
  | _ => ran

def step (emitted : Event × State) : Ran State Event Value :=
  ⟨[emitted.1], .next, emitted.2⟩

def leave (exit : Exit Value) (state : State) : Ran State Event Value :=
  ⟨[], .exit exit, state⟩

def skip (state : State) : Ran State Event Value :=
  ⟨[], .next, state⟩

-- After the body of a loop, a break ends the loop, and a continue its round.
def round (ran : Ran State Event Value) (next : State → Ran State Event Value) : Ran State Event Value :=
  match ran.outcome with
  | .next | .exit .continue_ => ran.after next
  | .exit .break_ => { ran with outcome := .next }
  | _ => ran

def endSwitch (breakEndsSwitch : Bool) (ran : Ran State Event Value) : Ran State Event Value :=
  match ran.outcome with
  | .exit .break_ => if breakEndsSwitch then { ran with outcome := .next } else ran
  | _ => ran

end Ran

section Loops

variable (test : State → Bool) (body : Meaning State Event Value)

def whileLoop : Meaning State Event Value
  | 0, state => ⟨[], .spent, state⟩
  | rounds + 1, state => if test state then (body rounds state).round (whileLoop rounds) else .skip state

def doWhileLoop : Meaning State Event Value
  | 0, state => ⟨[], .spent, state⟩
  | rounds + 1, state =>
    (body rounds state).round fun state => if test state then doWhileLoop rounds state else .skip state

end Loops

section Meaning

variable (machine : Machine State Event Value)

mutual

def StructuredStmt.meaning : StructuredStmt → Meaning State Event Value
  | .assign lhs rhs => fun _ state => .step (machine.assign lhs rhs state)
  | .store addr val => fun _ state => .step (machine.store addr val state)
  | .call target args out => fun _ state => .step (machine.call target args out state)
  | .ret value => fun _ state => .leave (.ret (machine.result value state)) state
  | .ifElse cond thenBody elseBody => fun rounds state =>
    if machine.test cond state then meanings thenBody rounds state else meanings elseBody rounds state
  | .while_ cond negate body => whileLoop (fun state => machine.test cond state ^^ negate) (meanings body)
  | .doWhile cond negate body => doWhileLoop (fun state => machine.test cond state ^^ negate) (meanings body)
  | .switch expr cases default => fun rounds state =>
    (caseMeaning cases (meanings default) (machine.value expr state) rounds state).endSwitch machine.breakEndsSwitch
  | .break_ => fun _ state => .leave .break_ state
  | .continue_ => fun _ state => .leave .continue_ state
  | .goto addr => fun _ state => .leave (.goto addr) state
  | .label _ => fun _ state => .skip state

def meanings : List StructuredStmt → Meaning State Event Value
  | [] => fun _ state => .skip state
  | stmt :: rest => fun rounds state => (stmt.meaning rounds state).bind (meanings rest rounds)

-- The body of the first case that lists the value.
def caseMeaning : List (List Int × List StructuredStmt) → Meaning State Event Value → Int → Meaning State Event Value
  | [], default, _ => default
  | (values, body) :: rest, default, value =>
    if value ∈ values then meanings body else caseMeaning rest default value

end

end Meaning

end Rsleigh.Decompile

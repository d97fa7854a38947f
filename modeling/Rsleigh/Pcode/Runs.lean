import Rsleigh.Pcode.Frame

namespace Rsleigh.Pcode.Runs

-- The ops of a function in the order of its layout, and where each may go on.
structure Program where
  ops : List PcodeOp
  goes : Nat → Nat → Prop
  entry : Nat

-- A transfer to another function, which may leave anything behind.
def isCall : PcodeOp → Bool
  | .call _ | .callInd _ => true
  | _ => false

-- What has been executed, the last op first, with the machine before each op.
abbrev History := List (Nat × Machine)

-- The machine after an op, inside the function still.
def stay (env : Env) (s : Machine) (op : PcodeOp) : Machine := { step env s op with left := false }

-- The runs from the entry: the ops executed, the machine after them, and the op that is next.
inductive Run (env : Env) (program : Program) : History → Machine → Nat → Prop where
  | start : s.left = false → Run env program [] s program.entry
  | step : Run env program h s i → program.ops[i]? = some op → isCall op = false → program.goes i j →
      Run env program ((i, s) :: h) (stay env s op) j
  | call : Run env program h s i → program.ops[i]? = some op → isCall op = true → program.goes i j →
      s'.left = false → Run env program ((i, s) :: h) s' j

def touches (op : PcodeOp) (v : Varnode) : Bool := isCall op || clobbers op v

-- The last op of a run that may have changed a byte of the varnode: its place, what had been executed before it, and
-- the machines before and after it.
inductive LastTouch (ops : List PcodeOp) (v : Varnode) : History → Machine → Nat → History → Machine → Machine → Prop where
  | here : ops[i]? = some op → touches op v = true → LastTouch ops v ((i, s₀) :: h) s i h s₀ s
  | before : ops[i]? = some op → touches op v = false → LastTouch ops v h s₀ j h' before after →
      LastTouch ops v ((i, s₀) :: h) s j h' before after

theorem read_stay (env : Env) (s : Machine) (op : PcodeOp) (v : Varnode) :
    (stay env s op).read env v = (step env s op).read env v := rfl

theorem run_running (run : Run env program h s i) : s.left = false := by
  cases run with
  | start running => exact running
  | step before isOp stays goes => rfl
  | call before isOp isCall_ goes running => exact running

theorem touch_read (run : Run env program h s i) (last : LastTouch program.ops v h s j h' before after) :
    s.read env v = after.read env v := by
  induction last generalizing i with
  | here isOp touched => rfl
  | @before k op s₀ h j h' before after s isOp untouched rest ih =>
    cases run with
    | @step _ _ _ op' _ earlier isOp' stays goes =>
      obtain rfl : op' = op := Option.some.inj (isOp'.symm.trans isOp)
      have kept : clobbers op' v = false := (Bool.or_eq_false_iff.mp untouched).2
      rw [read_stay,step_read (.inr kept)]
      exact ih earlier
    | @call _ _ _ op' _ _ earlier isOp' isCall_ goes running =>
      obtain rfl : op' = op := Option.some.inj (isOp'.symm.trans isOp)
      rw [(Bool.or_eq_false_iff.mp untouched).1] at isCall_
      cases isCall_

theorem touch_run (run : Run env program h s i) (last : LastTouch program.ops v h s j h' before after) :
    Run env program h' before j := by
  induction last generalizing i with
  | here isOp touched =>
    cases run with
    | step earlier isOp' stays goes => exact earlier
    | call earlier isOp' isCall_ goes running => exact earlier
  | before isOp untouched rest ih =>
    cases run with
    | step earlier isOp' stays goes => exact ih earlier
    | call earlier isOp' isCall_ goes running => exact ih earlier

theorem touch_member (last : LastTouch ops v h s j h' before after) : (j, before) ∈ h := by
  induction last with
  | here isOp touched => exact List.mem_cons_self
  | before isOp untouched rest ih => exact List.mem_cons_of_mem _ ih

theorem touch_earlier (last : LastTouch ops v h s j h' before after) : ∀ item ∈ h', item ∈ h := by
  induction last with
  | here isOp touched => exact fun item member => List.mem_cons_of_mem _ member
  | before isOp untouched rest ih =>
    exact fun item member => List.mem_cons_of_mem _ (ih item member)

theorem touch_after (run : Run env program h s i) (last : LastTouch program.ops v h s j h' before after)
    (isOp : program.ops[j]? = some op) (stays : isCall op = false) : after = stay env before op := by
  induction last generalizing i with
  | here isOp' touched =>
    cases run with
    | step earlier isOp'' stays' goes => rw [Option.some.inj (isOp.symm.trans isOp'')]
    | call earlier isOp'' isCall_ goes running =>
      rw [Option.some.inj (isOp''.symm.trans isOp),stays] at isCall_
      cases isCall_
  | before isOp' untouched rest ih =>
    cases run with
    | step earlier isOp'' stays' goes => exact ih earlier isOp
    | call earlier isOp'' isCall_ goes running => exact ih earlier isOp

end Rsleigh.Pcode.Runs

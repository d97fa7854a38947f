import Rsleigh.Decompile.Represented

namespace Rsleigh.Decompile

-- A graph whose blocks are named by their indices, as `build_cfg` names them.
structure IndexedCfg extends Cfg where
  indexed : ∀ (index : Nat) (block : BasicBlock), blocks[index]? = some block → block.id = index

-- A graph that has a block for its entry.
structure RootedCfg extends IndexedCfg where
  entered : entry < blocks.length

theorem buildCfg_entered {recovery : Recovery} {instructions : List (Nat × Decode.Instruction)}
    (notEmpty : instructions ≠ []) :
    (buildCfg recovery instructions).entry < (buildCfg recovery instructions).blocks.length := by
  have isEntry : (buildCfg recovery instructions).entry = 0 := by
    unfold buildCfg
    rw [if_neg (fun isEmpty => notEmpty (List.isEmpty_iff.mp isEmpty))]
  rw [isEntry]
  exact Nat.lt_of_lt_of_le (Nat.succ_pos _) (buildCfg_built notEmpty).length

-- The graph of the instructions of a function is one.
def builtCfg (recovery : Recovery) (instructions : List (Nat × Decode.Instruction)) (notEmpty : instructions ≠ []) :
    RootedCfg where
  toCfg := buildCfg recovery instructions
  indexed := (buildCfg_built notEmpty).ids
  entered := buildCfg_entered notEmpty

namespace Cfg

-- What control passes from one block of the graph to another.
def Edge (cfg : Cfg) (a b : BlockId) : Prop :=
  b ∈ cfg.successors a ∧ b < cfg.blocks.length

theorem successor_inside {cfg : Cfg} {a b : BlockId} (isSuccessor : b ∈ cfg.successors a) : a < cfg.blocks.length := by
  by_contra outside
  unfold successors at isSuccessor
  rw [List.getElem?_eq_none (Nat.le_of_not_lt outside)] at isSuccessor
  cases isSuccessor

end Cfg

end Rsleigh.Decompile

import Mathlib.Data.Finset.Card
import Mathlib.Data.List.Chain
import Mathlib.Data.List.Perm.Subperm
import Mathlib.Logic.Function.Basic
import Mathlib.Logic.Relation

namespace Rsleigh.EdgeClasses

inductive Color where
  | white
  | gray
  | black
  deriving DecidableEq

inductive EdgeKind where
  | tree
  | back
  | forward
  | cross
  deriving DecidableEq

structure Edge (α : Type) where
  from_ : α
  to_ : α
  kind : EdgeKind
  deriving DecidableEq

structure Traversal (α : Type) where
  colors : α → Color
  discovered : α → Nat
  clock : Nat
  edges : List (Edge α)

section Traversal

variable [DecidableEq α] (nodes : Finset α) (next : α → List α)

def Traversal.enter (traversal : Traversal α) (node : α) : Traversal α :=
  { traversal with
    colors := Function.update traversal.colors node .gray
    discovered := Function.update traversal.discovered node traversal.clock
    clock := traversal.clock + 1 }

def Traversal.leave (traversal : Traversal α) (node : α) : Traversal α :=
  { traversal with colors := Function.update traversal.colors node .black }

def Traversal.push (traversal : Traversal α) (edge : Edge α) : Traversal α :=
  { traversal with edges := traversal.edges ++ [edge] }

def Traversal.classify (traversal : Traversal α) (node successor : α) : EdgeKind :=
  match traversal.colors successor with
  | .white => .tree
  | .gray => .back
  | .black => if traversal.discovered node < traversal.discovered successor then .forward else .cross

-- An edge is classified, and followed to a node that was not discovered.
def follow (visit : Traversal α → α → Option (Traversal α)) (node : α) (traversal : Traversal α) (successor : α) :
    Option (Traversal α) :=
  if successor ∉ nodes then some traversal
  else
    let kind := traversal.classify node successor
    let traversal := traversal.push ⟨node, successor, kind⟩
    if kind = .tree then visit traversal successor else some traversal

-- The visits are nested as deep as the fuel.
def visit : Nat → Traversal α → α → Option (Traversal α)
  | 0, _, _ => none
  | fuel + 1, traversal, node =>
    ((next node).foldlM (follow nodes (visit fuel) node) (traversal.enter node)).map (·.leave node)

def visitWhite (fuel : Nat) (traversal : Traversal α) (node : α) : Option (Traversal α) :=
  if traversal.colors node = .white then visit nodes next fuel traversal node else some traversal

end Traversal

-- An edge along which a node was discovered.
def Tree (edges : List (Edge α)) (a b : α) : Prop :=
  ⟨a,b,.tree⟩ ∈ edges

-- In a list of the nodes that were left, the last one first: what was left before a node.
def LeftBefore (left : List α) (b a : α) : Prop :=
  ∀ pre post, left = pre ++ a :: post → b ∈ post

theorem leftBefore_push {left : List α} {a b node : α} (before : LeftBefore left b a) (last : a = node → b ∈ left) :
    LeftBefore (node :: left) b a := by
  intro pre post split
  cases pre with
  | nil =>
    obtain ⟨isNode,isLeft⟩ := List.cons.inj split
    exact isLeft ▸ last isNode.symm
  | cons first pre => exact before pre post (List.cons.inj split).2

theorem leftBefore_trans {left : List α} {a b c : α} (first : LeftBefore left c b) (second : LeftBefore left b a) :
    LeftBefore left c a := by
  intro pre post split
  obtain ⟨middle,rest,isPost⟩ := List.append_of_mem (second pre post split)
  have regrouped : left = (pre ++ a :: middle) ++ b :: rest := by simp [split,isPost]
  rw [isPost]
  exact List.mem_append_right _ (List.mem_cons_of_mem _ (first _ _ regrouped))

theorem leftBefore_irrefl {left : List α} {a : α} (nodup : left.Nodup) (member : a ∈ left) : ¬LeftBefore left a a := by
  intro before
  obtain ⟨pre,post,split⟩ := List.append_of_mem member
  have once := (List.nodup_append.mp (split ▸ nodup)).2.1
  exact (List.nodup_cons.mp once).1 (before pre post split)

-- What an edge says of its ends, while the nodes of the stack are open and the others were left.
structure Classified (traversal : Traversal α) (stack left : List α) (edge : Edge α) : Prop where
  from_ : traversal.colors edge.from_ ≠ .white
  to_ : traversal.colors edge.to_ ≠ .white
  tree : edge.kind = .tree → traversal.discovered edge.from_ < traversal.discovered edge.to_
  open_ : edge.kind = .tree → edge.to_ ∈ stack → ∃ pre post, stack = pre ++ edge.to_ :: edge.from_ :: post
  back : edge.kind = .back → Relation.ReflTransGen (Tree traversal.edges) edge.to_ edge.from_
  forward : edge.kind = .forward → Relation.TransGen (Tree traversal.edges) edge.from_ edge.to_
  cross : edge.kind = .cross → ¬traversal.discovered edge.from_ < traversal.discovered edge.to_
  closed : edge.kind ≠ .tree → edge.kind ≠ .back → edge.to_ ∈ left
  order : edge.kind ≠ .back → LeftBefore left edge.to_ edge.from_

structure Inv (traversal : Traversal α) (stack left : List α) : Prop where
  gray : ∀ v, traversal.colors v = .gray ↔ v ∈ stack
  black : ∀ v, traversal.colors v = .black ↔ v ∈ left
  stackOnce : stack.Nodup
  leftOnce : left.Nodup
  chain : stack.IsChain fun child parent => Tree traversal.edges parent child
  discovered : ∀ v, traversal.colors v ≠ .white → traversal.discovered v < traversal.clock
  nested : ∀ g ∈ stack, ∀ v, traversal.colors v ≠ .white → traversal.discovered g < traversal.discovered v →
    Relation.TransGen (Tree traversal.edges) g v
  classified : ∀ edge ∈ traversal.edges, Classified traversal stack left edge
  single : ∀ a a' b, Tree traversal.edges a b → Tree traversal.edges a' b → a = a'

section Steps

variable {traversal : Traversal α} {stack left : List α}

theorem white_iff (inv : Inv traversal stack left) {v : α} : traversal.colors v = .white ↔ v ∉ stack ∧ v ∉ left := by
  rw [← inv.gray,← inv.black]
  cases traversal.colors v <;> simp

theorem ancestor_append {edges more : List (Edge α)} {a b : α} (ancestor : Relation.TransGen (Tree edges) a b) :
    Relation.TransGen (Tree (edges ++ more)) a b :=
  Relation.TransGen.mono (fun _ _ isTree => List.mem_append_left more isTree) _ _ ancestor

theorem ancestorSelf_append {edges more : List (Edge α)} {a b : α} (ancestor : Relation.ReflTransGen (Tree edges) a b) :
    Relation.ReflTransGen (Tree (edges ++ more)) a b :=
  Relation.ReflTransGen.mono (fun _ _ isTree => List.mem_append_left more isTree) _ _ ancestor

theorem chain_ancestor {edges : List (Edge α)} : ∀ {stack : List α} {top g : α},
    (top :: stack).IsChain (fun child parent => Tree edges parent child) → g ∈ stack →
    Relation.TransGen (Tree edges) g top := by
  intro stack
  induction stack with
  | nil => simp
  | cons parent rest ih =>
    intro top g chain member
    obtain ⟨isTree,restChain⟩ := List.isChain_cons_cons.mp chain
    rcases List.mem_cons.mp member with isParent | member
    · rw [isParent]
      exact .single isTree
    · exact (ih restChain member).tail isTree

-- An edge from the top of the stack to a node that was discovered before.
theorem inv_push {top successor : α} (inv : Inv traversal (top :: stack) left)
    (notWhite : traversal.colors successor ≠ .white) :
    Inv (traversal.push ⟨top,successor,traversal.classify top successor⟩) (top :: stack) left := by
  have topGray : traversal.colors top = .gray := (inv.gray top).mpr List.mem_cons_self
  have topOpen : top ∉ left := by
    rw [← inv.black,topGray]
    simp
  have sameTree : ∀ {a b : α}, Tree (traversal.push ⟨top,successor,traversal.classify top successor⟩).edges a b →
      Tree traversal.edges a b := by
    intro a b isTree
    rcases List.mem_append.mp isTree with old | isNew
    · exact old
    · obtain ⟨_,isSuccessor,isKind⟩ := Edge.mk.inj (List.mem_singleton.mp isNew)
      unfold Traversal.classify at isKind
      cases isColor : traversal.colors successor with
      | white => exact absurd isColor notWhite
      | gray => simp [isColor] at isKind
      | black =>
        simp only [isColor] at isKind
        split at isKind <;> cases isKind
  refine { inv with
    chain := ?_
    nested := ?_
    classified := ?_
    single := fun a a' b one two => inv.single a a' b (sameTree one) (sameTree two) }
  · exact inv.chain.imp fun child parent isTree => List.mem_append_left _ isTree
  · exact fun g member v visited later => ancestor_append (inv.nested g member v visited later)
  · intro edge member
    rcases List.mem_append.mp member with old | isNew
    · have classified := inv.classified edge old
      exact { classified with
        back := fun isBack => ancestorSelf_append (classified.back isBack)
        forward := fun isForward => ancestor_append (classified.forward isForward) }
    · rw [List.mem_singleton.mp isNew]
      have vacuous : LeftBefore left successor top := by
        intro pre post split
        exact absurd (split ▸ List.mem_append_right _ List.mem_cons_self) topOpen
      unfold Traversal.classify
      cases isColor : traversal.colors successor with
      | white => exact absurd isColor notWhite
      | gray =>
        have isAncestor : Relation.ReflTransGen (Tree traversal.edges) successor top := by
          rcases List.mem_cons.mp ((inv.gray successor).mp isColor) with isTop | below
          · rw [isTop]
          · exact (chain_ancestor inv.chain below).to_reflTransGen
        exact ⟨by simp [Traversal.push,topGray],notWhite,nofun,nofun,fun _ => ancestorSelf_append isAncestor,nofun,nofun,
          fun _ notBack => absurd rfl notBack,fun notBack => absurd rfl notBack⟩
      | black =>
        have isLeft : successor ∈ left := (inv.black successor).mp isColor
        by_cases later : traversal.discovered top < traversal.discovered successor
        · simp only [if_pos later]
          exact ⟨by simp [Traversal.push,topGray],notWhite,nofun,nofun,nofun,
            fun _ => ancestor_append (inv.nested top List.mem_cons_self successor notWhite later),nofun,
            fun _ _ => isLeft,fun _ => vacuous⟩
        · simp only [if_neg later]
          exact ⟨by simp [Traversal.push,topGray],notWhite,nofun,nofun,nofun,nofun,fun _ => later,
            fun _ _ => isLeft,fun _ => vacuous⟩

variable [DecidableEq α]

-- A node is discovered, as a root or along an edge from the top of the stack.
theorem inv_enter {node : α} {new : List (Edge α)} (inv : Inv traversal stack left)
    (isWhite : traversal.colors node = .white)
    (linked : (node :: stack).IsChain fun child parent => Tree (traversal.edges ++ new) parent child)
    (fromTop : ∀ edge ∈ new, ∃ top rest, stack = top :: rest ∧ edge = ⟨top,node,.tree⟩) :
    Inv (Traversal.enter { traversal with edges := traversal.edges ++ new } node) (node :: stack) left := by
  obtain ⟨notOpen,notLeft⟩ := (white_iff inv).mp isWhite
  have visitedOther : ∀ {v : α}, traversal.colors v ≠ .white → v ≠ node := by
    rintro v visited rfl
    exact visited isWhite
  have intoNode : ∀ {a b : α}, Tree (traversal.edges ++ new) a b →
      (Tree traversal.edges a b ∧ b ≠ node) ∨ (b = node ∧ ∃ rest, stack = a :: rest) := by
    intro a b isTree
    rcases List.mem_append.mp isTree with old | isNew
    · exact Or.inl ⟨old,visitedOther (inv.classified _ old).to_⟩
    · obtain ⟨top,rest,isStack,isEdge⟩ := fromTop _ isNew
      obtain ⟨isTop,isNode,_⟩ := Edge.mk.inj isEdge
      exact Or.inr ⟨isNode,rest,isTop ▸ isStack⟩
  refine ⟨?_,?_,List.nodup_cons.mpr ⟨notOpen,inv.stackOnce⟩,inv.leftOnce,linked,?_,?_,?_,?_⟩
  · intro v
    by_cases here : v = node
    · simp [Traversal.enter,here]
    · simp [Traversal.enter,here,inv.gray]
  · intro v
    by_cases here : v = node
    · simp [Traversal.enter,here,notLeft]
    · simp [Traversal.enter,here,inv.black]
  · intro v visited
    by_cases here : v = node
    · simp [Traversal.enter,here]
    · have before := inv.discovered v (by simpa [Traversal.enter,here] using visited)
      simpa [Traversal.enter,here] using Nat.lt_succ_of_lt before
  · intro g member v visited later
    by_cases isNode : v = node
    · rcases List.mem_cons.mp member with same | below
      · rw [same,isNode] at later
        exact absurd later (Nat.lt_irrefl _)
      · rw [isNode]
        exact chain_ancestor linked below
    · have before : traversal.colors v ≠ .white := by simpa [Traversal.enter,isNode] using visited
      rcases List.mem_cons.mp member with same | below
      · have early := inv.discovered v before
        simp only [Traversal.enter,same,Function.update_self,Function.update_of_ne isNode] at later
        omega
      · have other : g ≠ node := fun same => notOpen (same ▸ below)
        exact ancestor_append (inv.nested g below v before (by simpa [Traversal.enter,isNode,other] using later))
  · intro edge member
    rcases List.mem_append.mp member with old | isNew
    · have classified := inv.classified edge old
      have fromOther := visitedOther classified.from_
      have toOther := visitedOther classified.to_
      refine ⟨?_,?_,?_,?_,?_,?_,?_,classified.closed,classified.order⟩
      · simpa [Traversal.enter,fromOther] using classified.from_
      · simpa [Traversal.enter,toOther] using classified.to_
      · simpa [Traversal.enter,fromOther,toOther] using classified.tree
      · intro isTree isOpen
        obtain ⟨pre,post,split⟩ := classified.open_ isTree ((List.mem_cons.mp isOpen).resolve_left toOther)
        exact ⟨node :: pre,post,by rw [split,List.cons_append]⟩
      · exact fun isBack => ancestorSelf_append (classified.back isBack)
      · exact fun isForward => ancestor_append (classified.forward isForward)
      · simpa [Traversal.enter,fromOther,toOther] using classified.cross
    · obtain ⟨top,rest,isStack,rfl⟩ := fromTop edge isNew
      subst isStack
      have topGray : traversal.colors top = .gray := (inv.gray top).mpr List.mem_cons_self
      have topVisited : traversal.colors top ≠ .white := by simp [topGray]
      have topOther := visitedOther topVisited
      refine ⟨?_,?_,?_,?_,nofun,nofun,nofun,fun notTree => absurd rfl notTree,?_⟩
      · simpa [Traversal.enter,topOther] using topVisited
      · simp [Traversal.enter]
      · intro _
        simpa [Traversal.enter,topOther] using inv.discovered top topVisited
      · exact fun _ _ => ⟨[],rest,rfl⟩
      · intro _ pre post split
        have isLeft : top ∈ left := split ▸ List.mem_append_right _ List.mem_cons_self
        rw [← inv.black,topGray] at isLeft
        cases isLeft
  · intro a a' b one two
    rcases intoNode one with ⟨oldOne,other⟩ | ⟨here,rest,isTop⟩
    · rcases intoNode two with ⟨oldTwo,_⟩ | ⟨here,_⟩
      · exact inv.single a a' b oldOne oldTwo
      · exact absurd here other
    · rcases intoNode two with ⟨_,other⟩ | ⟨_,rest',isTop'⟩
      · exact absurd here other
      · rw [isTop] at isTop'
        exact (List.cons.inj isTop').1

-- The top of the stack is left, with all its edges followed.
theorem inv_leave {top : α} (inv : Inv traversal (top :: stack) left) :
    Inv (traversal.leave top) stack (top :: left) := by
  obtain ⟨topOnce,stackOnce⟩ := List.nodup_cons.mp inv.stackOnce
  have topGray : traversal.colors top = .gray := (inv.gray top).mpr List.mem_cons_self
  have topOpen : top ∉ left := by
    rw [← inv.black,topGray]
    simp
  have visited : ∀ {v : α}, (traversal.leave top).colors v ≠ .white → traversal.colors v ≠ .white := by
    intro v notWhite
    by_cases here : v = top
    · rw [here,topGray]
      simp
    · simpa [Traversal.leave,here] using notWhite
  have stillVisited : ∀ {v : α}, traversal.colors v ≠ .white → (traversal.leave top).colors v ≠ .white := by
    intro v notWhite
    by_cases here : v = top
    · simp [Traversal.leave,here]
    · simpa [Traversal.leave,here] using notWhite
  refine ⟨?_,?_,stackOnce,List.nodup_cons.mpr ⟨topOpen,inv.leftOnce⟩,?_,?_,?_,?_,inv.single⟩
  · intro v
    by_cases here : v = top
    · simp [Traversal.leave,here,topOnce]
    · simp [Traversal.leave,here,inv.gray]
  · intro v
    by_cases here : v = top
    · simp [Traversal.leave,here]
    · simp [Traversal.leave,here,inv.black]
  · exact inv.chain.tail
  · exact fun v notWhite => inv.discovered v (visited notWhite)
  · exact fun g member v notWhite => inv.nested g (List.mem_cons_of_mem _ member) v (visited notWhite)
  · intro edge member
    have classified := inv.classified edge member
    refine { classified with
      from_ := stillVisited classified.from_
      to_ := stillVisited classified.to_
      open_ := ?_
      closed := fun notTree notBack => List.mem_cons_of_mem _ (classified.closed notTree notBack)
      order := ?_ }
    · intro isTree isOpen
      obtain ⟨pre,post,split⟩ := classified.open_ isTree (List.mem_cons_of_mem _ isOpen)
      cases pre with
      | nil => exact absurd ((List.cons.inj split).1 ▸ isOpen) topOnce
      | cons first pre => exact ⟨pre,post,(List.cons.inj split).2⟩
    · intro notBack
      apply leftBefore_push (classified.order notBack)
      intro isTop
      by_cases isTree : edge.kind = .tree
      · rw [← inv.black]
        cases isColor : traversal.colors edge.to_ with
        | white => exact absurd isColor classified.to_
        | black => rfl
        | gray =>
          obtain ⟨pre,post,split⟩ := classified.open_ isTree ((inv.gray _).mp isColor)
          rw [isTop] at split
          cases pre with
          | nil =>
            have again : top ∈ stack := (List.cons.inj split).2 ▸ List.mem_cons_self
            exact absurd again topOnce
          | cons first pre =>
            have again : top ∈ stack := (List.cons.inj split).2 ▸
              List.mem_append_right _ (List.mem_cons_of_mem _ List.mem_cons_self)
            exact absurd again topOnce
      · exact classified.closed isTree notBack

end Steps

def Edge.ends (edge : Edge α) : α × α :=
  (edge.from_,edge.to_)

-- Nothing is discovered, and the times are the largest.
def initial : Traversal α :=
  ⟨fun _ => .white, fun _ => 0xffffffffffffffff, 0, []⟩

theorem initial_inv : Inv (@initial α) [] [] := by
  refine ⟨?_,?_,List.nodup_nil,List.nodup_nil,List.isChain_nil,?_,?_,?_,?_⟩ <;> simp [initial,Tree]

-- What the edges of a graph are classified as.
structure Classes (edges : List (Edge α)) : Prop where
  back : ∀ edge ∈ edges, edge.kind = .back ↔ Relation.ReflTransGen (Tree edges) edge.to_ edge.from_
  forward : ∀ edge ∈ edges, edge.kind = .forward ↔
    edge.kind ≠ .tree ∧ Relation.TransGen (Tree edges) edge.from_ edge.to_
  acyclic : ∀ node, ¬Relation.TransGen (fun a b => ∃ edge ∈ edges, edge.ends = (a,b) ∧ edge.kind ≠ .back) node node
  forest : ∀ a a' b, Tree edges a b → Tree edges a' b → a = a'

theorem tree_discovered {traversal : Traversal α} {stack left : List α} (inv : Inv traversal stack left) {a b : α}
    (ancestor : Relation.TransGen (Tree traversal.edges) a b) : traversal.discovered a < traversal.discovered b := by
  induction ancestor with
  | single isTree => exact (inv.classified _ isTree).tree rfl
  | tail before isTree ih =>
    exact Nat.lt_trans ih ((inv.classified _ isTree).tree rfl)

theorem tree_left {traversal : Traversal α} {stack left : List α} (inv : Inv traversal stack left) {a b : α}
    (ancestor : Relation.TransGen (Tree traversal.edges) a b) : LeftBefore left b a := by
  induction ancestor with
  | single isTree => exact (inv.classified _ isTree).order (by simp)
  | tail before isTree ih =>
    exact leftBefore_trans ((inv.classified _ isTree).order (by simp)) ih

-- With nothing open, times of discovery and of leaving tell the kinds apart.
theorem inv_classes {traversal : Traversal α} {left : List α} (inv : Inv traversal [] left) : Classes traversal.edges where
  back := by
    intro edge member
    have classified := inv.classified edge member
    refine ⟨classified.back,?_⟩
    intro ancestor
    by_contra notBack
    have before := classified.order notBack
    have isLeft : edge.from_ ∈ left := by
      by_contra notLeft
      exact classified.from_ ((white_iff inv).mpr ⟨List.not_mem_nil,notLeft⟩)
    rcases Relation.reflTransGen_iff_eq_or_transGen.mp ancestor with same | proper
    · rw [same] at before
      exact leftBefore_irrefl inv.leftOnce (same ▸ isLeft) before
    · exact leftBefore_irrefl inv.leftOnce isLeft (leftBefore_trans (tree_left inv proper) before)
  forward := by
    intro edge member
    have classified := inv.classified edge member
    constructor
    · intro isForward
      exact ⟨by simp [isForward],classified.forward isForward⟩
    · rintro ⟨notTree,descendant⟩
      have later := tree_discovered inv descendant
      cases isKind : edge.kind with
      | tree => exact absurd isKind notTree
      | forward => rfl
      | cross => exact absurd later (classified.cross isKind)
      | back =>
        rcases Relation.reflTransGen_iff_eq_or_transGen.mp (classified.back isKind) with same | proper
        · rw [same] at later
          exact absurd later (Nat.lt_irrefl _)
        · exact absurd later (Nat.lt_asymm (tree_discovered inv proper))
  acyclic := by
    intro node cycle
    have ordered : ∀ {a b : α}, Relation.TransGen
        (fun a b => ∃ edge ∈ traversal.edges, edge.ends = (a,b) ∧ edge.kind ≠ .back) a b →
        a ∈ left ∧ LeftBefore left b a := by
      intro a b path
      have step : ∀ {a b : α}, (∃ edge ∈ traversal.edges, edge.ends = (a,b) ∧ edge.kind ≠ .back) →
          a ∈ left ∧ LeftBefore left b a := by
        rintro a b ⟨edge,member,isEnds,notBack⟩
        obtain ⟨rfl,rfl⟩ := Prod.mk.inj isEnds
        refine ⟨?_,(inv.classified edge member).order notBack⟩
        by_contra notLeft
        exact (inv.classified edge member).from_ ((white_iff inv).mpr ⟨List.not_mem_nil,notLeft⟩)
      induction path with
      | single isEdge => exact step isEdge
      | tail before isEdge ih =>
        exact ⟨ih.1,leftBefore_trans (step isEdge).2 ih.2⟩
    exact leftBefore_irrefl inv.leftOnce (ordered cycle).1 (ordered cycle).2
  forest := inv.single

section Runs

variable [DecidableEq α] (nodes : Finset α) (next : α → List α)

-- The edges of the graph that start at a node.
def outgoing (node : α) : List (α × α) :=
  ((next node).filter (· ∈ nodes)).map fun successor => (node,successor)

def whites (traversal : Traversal α) : Finset α :=
  nodes.filter fun node => traversal.colors node = .white

-- What a part of a traversal adds: nodes that were left, and the edges of these with some others.
structure Grown (before after : Traversal α) (stack left fresh : List α) (reported : List (α × α)) : Prop where
  inv : Inv after stack (fresh ++ left)
  inside : ∀ node ∈ fresh, node ∈ nodes
  edges : ∃ new, after.edges = before.edges ++ new ∧
    (new.map Edge.ends).Perm (reported ++ fresh.flatMap (outgoing nodes next))

variable {nodes next}

theorem grown_trans {first second third : Traversal α} {stack left fresh fresher : List α} {reported more : List (α × α)}
    (grown : Grown nodes next first second stack left fresh reported)
    (again : Grown nodes next second third stack (fresh ++ left) fresher more) :
    Grown nodes next first third stack left (fresher ++ fresh) (reported ++ more) where
  inv := by
    rw [List.append_assoc]
    exact again.inv
  inside := by
    intro node member
    rcases List.mem_append.mp member with member | member
    · exact again.inside node member
    · exact grown.inside node member
  edges := by
    obtain ⟨new,isSecond,perm⟩ := grown.edges
    obtain ⟨newer,isThird,morePerm⟩ := again.edges
    refine ⟨new ++ newer,by rw [isThird,isSecond,List.append_assoc],?_⟩
    rw [List.map_append,List.flatMap_append]
    refine (perm.append morePerm).trans ?_
    rw [List.append_assoc,List.append_assoc]
    refine List.Perm.append_left _ (List.perm_append_comm.trans ?_)
    rw [List.append_assoc]

theorem grown_whites {before after : Traversal α} {stack left fresh : List α} {reported : List (α × α)}
    (inv : Inv before stack left) (grown : Grown nodes next before after stack left fresh reported) :
    whites nodes after ⊆ whites nodes before := by
  intro node member
  obtain ⟨inside,isWhite⟩ := Finset.mem_filter.mp member
  obtain ⟨notOpen,notLeft⟩ := (white_iff grown.inv).mp isWhite
  exact Finset.mem_filter.mpr ⟨inside,(white_iff inv).mpr ⟨notOpen,fun member => notLeft (List.mem_append_right _ member)⟩⟩

theorem enter_whites {traversal : Traversal α} {node : α} (inside : node ∈ nodes)
    (isWhite : traversal.colors node = .white) :
    (whites nodes (traversal.enter node)).card < (whites nodes traversal).card := by
  have member : node ∈ whites nodes traversal := Finset.mem_filter.mpr ⟨inside,isWhite⟩
  apply Finset.card_lt_card
  refine Finset.ssubset_iff_subset_ne.mpr ⟨?_,?_⟩
  · intro other otherWhite
    obtain ⟨otherInside,stillWhite⟩ := Finset.mem_filter.mp otherWhite
    refine Finset.mem_filter.mpr ⟨otherInside,?_⟩
    by_cases same : other = node
    · rw [same]
      exact isWhite
    · simpa [Traversal.enter,same] using stillWhite
  · intro same
    rw [← same] at member
    exact absurd (Finset.mem_filter.mp member).2 (by simp [Traversal.enter])

-- A visit of a node that was just discovered, along the last edge or as a root.
def Visits (nodes : Finset α) (next : α → List α) (fuel : Nat) : Prop :=
  ∀ (traversal : Traversal α) (stack left : List α) (node : α) (new : List (Edge α)), Inv traversal stack left →
    node ∈ nodes → traversal.colors node = .white → (whites nodes traversal).card ≤ fuel →
    ((node :: stack).IsChain fun child parent => Tree (traversal.edges ++ new) parent child) →
    (∀ edge ∈ new, ∃ top rest, stack = top :: rest ∧ edge = ⟨top,node,.tree⟩) →
    ∃ after fresh, visit nodes next fuel { traversal with edges := traversal.edges ++ new } node = some after ∧
      Grown nodes next { traversal with edges := traversal.edges ++ new } after stack left fresh [] ∧ node ∈ fresh

theorem follow_grown {fuel : Nat} (visits : Visits nodes next fuel) {traversal : Traversal α} {top : α}
    {stack left : List α} (inv : Inv traversal (top :: stack) left) (enough : (whites nodes traversal).card ≤ fuel)
    (successor : α) :
    ∃ after fresh, follow nodes (visit nodes next fuel) top traversal successor = some after ∧
      Grown nodes next traversal after (top :: stack) left fresh
        ((if successor ∈ nodes then [successor] else []).map fun successor => (top,successor)) := by
  unfold follow
  by_cases inside : successor ∈ nodes
  · rw [if_neg (not_not.mpr inside),if_pos inside]
    dsimp only
    by_cases isWhite : traversal.colors successor = .white
    · have isTree : traversal.classify top successor = .tree := by simp [Traversal.classify,isWhite]
      rw [isTree,if_pos rfl]
      obtain ⟨after,fresh,isAfter,grown,_⟩ := visits traversal (top :: stack) left successor [⟨top,successor,.tree⟩] inv
        inside isWhite enough
        (List.isChain_cons_cons.mpr ⟨List.mem_append_right _ (List.mem_singleton_self _),
          inv.chain.imp fun child parent isTree => List.mem_append_left _ isTree⟩)
        (fun edge member => ⟨top,stack,rfl,List.mem_singleton.mp member⟩)
      refine ⟨after,fresh,isAfter,grown.inv,grown.inside,?_⟩
      obtain ⟨new,isNew,perm⟩ := grown.edges
      refine ⟨⟨top,successor,.tree⟩ :: new,by simpa using isNew,?_⟩
      exact perm.cons _
    · have notTree : traversal.classify top successor ≠ .tree := by
        unfold Traversal.classify
        cases isColor : traversal.colors successor with
        | white => exact absurd isColor isWhite
        | gray => simp
        | black =>
          dsimp only
          split <;> simp
      rw [if_neg notTree]
      refine ⟨_,[],rfl,inv_push inv isWhite,by simp,[⟨top,successor,traversal.classify top successor⟩],rfl,?_⟩
      exact List.Perm.refl _
  · rw [if_pos inside,if_neg inside]
    exact ⟨traversal,[],rfl,inv,by simp,[],(List.append_nil _).symm,List.Perm.refl _⟩

theorem foldl_grown {fuel : Nat} (visits : Visits nodes next fuel) {top : α} {stack : List α} :
    ∀ {successors left : List α} {traversal : Traversal α}, Inv traversal (top :: stack) left →
    (whites nodes traversal).card ≤ fuel →
    ∃ after fresh, successors.foldlM (follow nodes (visit nodes next fuel) top) traversal = some after ∧
      Grown nodes next traversal after (top :: stack) left fresh
        ((successors.filter (· ∈ nodes)).map fun successor => (top,successor)) := by
  intro successors
  induction successors with
  | nil =>
    intro left traversal inv _
    exact ⟨traversal,[],rfl,inv,by simp,[],(List.append_nil _).symm,List.Perm.refl _⟩
  | cons successor rest ih =>
    intro left traversal inv enough
    obtain ⟨middle,fresh,isMiddle,grown⟩ := follow_grown visits inv enough successor
    obtain ⟨after,fresher,isAfter,again⟩ := ih grown.inv
      (Nat.le_trans (Finset.card_le_card (grown_whites inv grown)) enough)
    refine ⟨after,fresher ++ fresh,?_,?_⟩
    · rw [List.foldlM_cons,isMiddle]
      exact isAfter
    · have both := grown_trans grown again
      rw [← List.map_append] at both
      by_cases inside : successor ∈ nodes
      · simpa [inside] using both
      · simpa [inside] using both

theorem visit_visits : ∀ fuel : Nat, Visits nodes next fuel := by
  intro fuel
  induction fuel with
  | zero =>
    intro traversal stack left node new inv inside isWhite enough
    have member : node ∈ whites nodes traversal := Finset.mem_filter.mpr ⟨inside,isWhite⟩
    rw [Finset.card_eq_zero.mp (Nat.le_zero.mp enough)] at member
    exact absurd member (Finset.notMem_empty _)
  | succ fuel ih =>
    intro traversal stack left node new inv inside isWhite enough linked fromTop
    have entered := inv_enter inv isWhite linked fromTop
    have fewer : (whites nodes (Traversal.enter { traversal with edges := traversal.edges ++ new } node)).card ≤ fuel :=
      Nat.le_of_lt_succ (Nat.lt_of_lt_of_le
        (@enter_whites α _ nodes { traversal with edges := traversal.edges ++ new } node inside isWhite) enough)
    obtain ⟨after,fresh,isAfter,grown⟩ := @foldl_grown α _ nodes next fuel ih node stack (next node) left _
      entered fewer
    refine ⟨after.leave node,node :: fresh,?_,⟨inv_leave grown.inv,?_,?_⟩,List.mem_cons_self⟩
    · unfold visit
      rw [isAfter]
      rfl
    · intro other member
      rcases List.mem_cons.mp member with same | member
      · rw [same]
        exact inside
      · exact grown.inside other member
    · obtain ⟨newer,isNewer,perm⟩ := grown.edges
      exact ⟨newer,isNewer,by simpa [outgoing] using perm⟩

theorem visitWhite_grown {fuel : Nat} {traversal : Traversal α} {left : List α} (inv : Inv traversal [] left)
    (enough : (whites nodes traversal).card ≤ fuel) {root : α} (inside : root ∈ nodes) :
    ∃ after fresh, visitWhite nodes next fuel traversal root = some after ∧
      Grown nodes next traversal after [] left fresh [] ∧ root ∈ fresh ++ left := by
  unfold visitWhite
  by_cases isWhite : traversal.colors root = .white
  · have noNew : { traversal with edges := traversal.edges ++ [] } = traversal := by simp
    obtain ⟨after,fresh,isAfter,grown,member⟩ := visit_visits fuel traversal [] left root [] inv inside isWhite enough
      (List.isChain_singleton _) (fun edge member => absurd member List.not_mem_nil)
    rw [noNew] at isAfter grown
    rw [if_pos isWhite]
    exact ⟨after,fresh,isAfter,grown,List.mem_append_left _ member⟩
  · rw [if_neg isWhite]
    refine ⟨traversal,[],rfl,⟨inv,by simp,[],(List.append_nil _).symm,List.Perm.refl _⟩,?_⟩
    by_contra notLeft
    exact isWhite ((white_iff inv).mpr ⟨List.not_mem_nil,notLeft⟩)

theorem roots_grown {fuel : Nat} : ∀ {roots left : List α} {traversal : Traversal α}, Inv traversal [] left →
    (whites nodes traversal).card ≤ fuel → (∀ root ∈ roots, root ∈ nodes) →
    ∃ after fresh, roots.foldlM (visitWhite nodes next fuel) traversal = some after ∧
      Grown nodes next traversal after [] left fresh [] ∧ ∀ root ∈ roots, root ∈ fresh ++ left := by
  intro roots
  induction roots with
  | nil =>
    intro left traversal inv _ _
    exact ⟨traversal,[],rfl,⟨inv,by simp,[],(List.append_nil _).symm,List.Perm.refl _⟩,by simp⟩
  | cons root rest ih =>
    intro left traversal inv enough inside
    obtain ⟨middle,fresh,isMiddle,grown,member⟩ := @visitWhite_grown α _ nodes next fuel traversal left inv enough root
      (inside root List.mem_cons_self)
    obtain ⟨after,fresher,isAfter,again,members⟩ := ih grown.inv
      (Nat.le_trans (Finset.card_le_card (grown_whites inv grown)) enough)
      (fun other member => inside other (List.mem_cons_of_mem _ member))
    refine ⟨after,fresher ++ fresh,?_,grown_trans grown again,?_⟩
    · rw [List.foldlM_cons,isMiddle]
      exact isAfter
    · intro other isRoot
      rw [List.append_assoc]
      rcases List.mem_cons.mp isRoot with same | isRoot
      · rw [same]
        exact List.mem_append_right _ member
      · exact members other isRoot

theorem traversal_classes {fuel : Nat} {roots : List α} (same : ∀ node, node ∈ roots ↔ node ∈ nodes)
    (enough : nodes.card ≤ fuel) {all : List α} (once : all.Nodup) (listed : ∀ node, node ∈ all ↔ node ∈ nodes) :
    ∃ after, roots.foldlM (visitWhite nodes next fuel) initial = some after ∧ Classes after.edges ∧
      (after.edges.map Edge.ends).Perm (all.flatMap (outgoing nodes next)) := by
  have allWhite : (whites nodes (@initial α)).card ≤ fuel := by simpa [whites,initial] using enough
  obtain ⟨after,fresh,isAfter,grown,members⟩ := @roots_grown α _ nodes next fuel roots [] initial initial_inv allWhite
    (fun root member => (same root).mp member)
  refine ⟨after,isAfter,inv_classes grown.inv,?_⟩
  obtain ⟨new,isNew,perm⟩ := grown.edges
  rw [isNew]
  refine perm.trans (List.Perm.flatMap_right _ ?_)
  have freshOnce : fresh.Nodup := by simpa using grown.inv.leftOnce
  refine (List.perm_ext_iff_of_nodup freshOnce once).mpr fun node => ?_
  rw [listed]
  exact ⟨grown.inside node,fun inside => by simpa using members node ((same node).mpr inside)⟩

end Runs

end Rsleigh.EdgeClasses

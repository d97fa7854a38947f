import Rsleigh.Preprocessor.Machine
import Rsleigh.Preprocessor.Lines

namespace Rsleigh.Preprocessor

open Parsing

-- What a condition is written with. An operand and what follows it up to the next operand or parenthesis may be
-- apart by blanks.
def Blank : Type := { text : Text // ∀ c ∈ text, isSpace c = true }

structure Name where
  first : Char
  rest : Text
  isFirst : isIdentFirst first = true
  isRest : ∀ c ∈ rest, isIdentMiddle c = true

def Name.chars (name : Name) : Text := name.first :: name.rest

-- A quoted text, with its quotes and backslashes escaped.
def quoted (text : Text) : Text :=
  text.flatMap fun c => if c == '"' || c == '\\' then ['\\',c] else [c]

inductive Test where
  | cmp (name : Name) (before : Blank) (op : CmpOp) (after : Blank) (value : Text)
  | defined (before : Blank) (name : Name)

mutual

inductive Operand where
  | test (test : Test) (after : Blank)
  | paren (inner : Condition) (after : Blank)

-- A chain of operands: any operators, in any order.
inductive Condition where
  | single (operand : Operand)
  | chain (operand : Operand) (op : BoolOp) (after : Blank) (rest : Condition)

end

def CmpOp.chars : CmpOp → Text
  | .eq => "==".toList
  | .ne => "!=".toList

def BoolOp.chars : BoolOp → Text
  | .and => "&&".toList
  | .or => "||".toList
  | .xor => "^^".toList

def Test.chars : Test → Text
  | .cmp name before op after value => name.chars ++ (before.1 ++ (op.chars ++ (after.1 ++ ('"' :: (quoted value ++ ['"'])))))
  | .defined before name => "defined".toList ++ (before.1 ++ ('(' :: (name.chars ++ [')'])))

theorem Test.chars_cmp (name : Name) (before : Blank) (op : CmpOp) (after : Blank) (value : Text) :
    (Test.cmp name before op after value).chars =
      name.chars ++ (before.1 ++ (op.chars ++ (after.1 ++ ('"' :: (quoted value ++ ['"']))))) :=
  rfl

theorem Test.chars_defined (before : Blank) (name : Name) : (Test.defined before name).chars =
    "defined".toList ++ (before.1 ++ ('(' :: (name.chars ++ [')']))) :=
  rfl

def Test.check : Test → IfCheck
  | .cmp name _ op _ value => .cmp name.chars op value
  | .defined _ name => .defined name.chars

mutual

def Operand.chars : Operand → Text
  | .test test after => test.chars ++ after.1
  | .paren inner after => '(' :: (inner.chars ++ (')' :: after.1))

def Condition.chars : Condition → Text
  | .single operand => operand.chars
  | .chain operand op after rest => operand.chars ++ (op.chars ++ (after.1 ++ rest.chars))

end

mutual

def Operand.size : Operand → Nat
  | .test _ _ => 1
  | .paren inner _ => inner.size + 1

def Condition.size : Condition → Nat
  | .single operand => operand.size
  | .chain operand _ _ rest => operand.size + rest.size

end

mutual

-- What the parser makes of a condition.
def Operand.check : Operand → IfCheck
  | .test test _ => test.check
  | .paren inner _ => inner.check

def Condition.check : Condition → IfCheck
  | .single operand => operand.check
  | .chain operand op _ rest => .op operand.check op rest.check

end

section Values

variable (state : PreProcessorState)

def Test.Known : Test → Prop
  | .cmp name _ _ _ _ => ∃ defined, state name.chars = some (some defined)
  | .defined _ _ => True

def Test.holds : Test → Bool
  | .cmp name _ op _ value => ((state name.chars).join).any (op.cmp value)
  | .defined _ name => state.exists_ name.chars

mutual

-- Every compared name has a value.
def Operand.Known : Operand → Prop
  | .test test _ => test.Known state
  | .paren inner _ => inner.Known

def Condition.Known : Condition → Prop
  | .single operand => operand.Known
  | .chain operand _ _ rest => operand.Known ∧ rest.Known

end

mutual

-- The value where an operator takes all that follows it, up to the closing parenthesis.
def Operand.holds : Operand → Bool
  | .test test _ => test.holds state
  | .paren inner _ => inner.holds

def Condition.holds : Condition → Bool
  | .single operand => operand.holds
  | .chain operand op _ rest => op.check operand.holds rest.holds

end

-- The value of a chain where `&&` binds tightest, then `^^`, then `||`: what is done of either of the three.
structure Weighed where
  ors : Bool
  xors : Bool
  ands : Bool

def Weighed.value (weighed : Weighed) : Bool := weighed.ors || (weighed.xors ^^ weighed.ands)

def Weighed.push (weighed : Weighed) (op : BoolOp) (value : Bool) : Weighed :=
  match op with
  | .and => { weighed with ands := weighed.ands && value }
  | .xor => ⟨weighed.ors, weighed.xors ^^ weighed.ands, value⟩
  | .or => ⟨weighed.value, false, value⟩

mutual

def Operand.weighed : Operand → Bool
  | .test test _ => test.holds state
  | .paren inner _ => (inner.weigh ⟨false, false, true⟩ .and).value

def Condition.weigh : Condition → Weighed → BoolOp → Weighed
  | .single operand, before, op => before.push op operand.weighed
  | .chain operand next _ rest, before, op => rest.weigh (before.push op operand.weighed) next

end

def Condition.conventional (condition : Condition) : Bool :=
  (condition.weigh state ⟨false, false, true⟩ .and).value

end Values

section Reading

-- What follows is not taken with what is accepted.
def Past (accept : Char → Bool) (next : Text) : Prop := ∀ c, next.head? = some c → accept c = false

theorem past_cons {accept : Char → Bool} {c : Char} (refused : accept c = false) (next : Text) : Past accept (c :: next) := by
  intro other isHead
  obtain rfl := Option.some.inj isHead
  exact refused

theorem takeWhile_past {accept : Char → Bool} {text next : Text} (all : ∀ c ∈ text, accept c = true)
    (past : Past accept next) : takeWhile accept (text ++ next) = some (text,next) := by
  have stops : next.takeWhile accept = [] ∧ next.dropWhile accept = next := by
    cases next with
    | nil => exact ⟨rfl,rfl⟩
    | cons c rest =>
      have refused := past c rfl
      exact ⟨List.takeWhile_cons_of_neg (by simp [refused]),List.dropWhile_cons_of_neg (by simp [refused])⟩
  unfold takeWhile
  rw [List.takeWhile_append_of_pos all,List.dropWhile_append_of_pos all,stops.1,stops.2,List.append_nil]

theorem space0_blank (blank : Blank) {next : Text} (past : Past isSpace next) :
    space0 (blank.1 ++ next) = some (blank.1,next) :=
  takeWhile_past blank.2 past

theorem takeWhile_twice {narrow wide : Char → Bool} (within : ∀ c, narrow c = true → wide c = true) (text : Text) :
    text.takeWhile narrow ++ (text.dropWhile narrow).takeWhile wide = text.takeWhile wide ∧
      (text.dropWhile narrow).dropWhile wide = text.dropWhile wide := by
  induction text with
  | nil => exact ⟨rfl,rfl⟩
  | cons c rest ih =>
    by_cases accepted : narrow c = true
    · have also := within c accepted
      simp only [List.takeWhile_cons,List.dropWhile_cons,accepted,also,if_true,List.cons_append,ih]
      exact ⟨trivial,trivial⟩
    · simp [accepted]

theorem first_middle (c : Char) (isFirst : isIdentFirst c = true) : isIdentMiddle c = true := by
  simp [isIdentMiddle,isFirst]

theorem ident_name (name : Name) {next : Text} (past : Past isIdentMiddle next) :
    ident (name.chars ++ next) = some (name.chars,next) := by
  have all : ∀ c ∈ name.chars, isIdentMiddle c = true := by
    intro c member
    rcases List.mem_cons.mp member with rfl | member
    · exact first_middle _ name.isFirst
    · exact name.isRest c member
  have whole := takeWhile_past all past
  unfold takeWhile at whole
  obtain ⟨taken,left⟩ := Prod.mk.inj (Option.some.inj whole)
  obtain ⟨joined,dropped⟩ := takeWhile_twice first_middle (name.chars ++ next)
  have some_ : ((name.chars ++ next).takeWhile isIdentFirst).isEmpty = false := by
    simp [Name.chars,name.isFirst]
  simp [ident,map,pair,takeWhile1,takeWhile,some_,joined,dropped,taken,left]

theorem inQuotes_quoted (value rest : Text) : ∀ ret, inQuotesFrom false ret (quoted value ++ '"' :: rest) =
    some (ret ++ value,'"' :: rest) := by
  induction value with
  | nil => simp [quoted,inQuotesFrom]
  | cons c value ih =>
    intro ret
    have step : quoted (c :: value) = (if c == '"' || c == '\\' then ['\\',c] else [c]) ++ quoted value := by
      simp [quoted]
    rw [step]
    by_cases escaped : (c == '"' || c == '\\') = true
    · rw [if_pos escaped]
      simp [inQuotesFrom,ih]
    · rw [if_neg escaped]
      simp only [Bool.or_eq_true,beq_iff_eq,not_or] at escaped
      simp [inQuotesFrom,escaped,ih]

theorem word_own (expected : String) (rest : Text) : word expected (expected.toList ++ rest) = some ((),rest) :=
  word_some.mpr rfl

theorem string_quoted (value rest : Text) :
    string ('"' :: (quoted value ++ ['"']) ++ rest) = some (value,rest) := by
  have opens : word "\"" ('"' :: (quoted value ++ ['"']) ++ rest) = some ((),quoted value ++ '"' :: rest) :=
    word_some.mpr (by simp)
  exact delimited_some opens (inQuotes_quoted value rest []) (word_some.mpr rfl)

theorem cmpOp_chars (op : CmpOp) (next : Text) : cmpOp (op.chars ++ next) = some (op,next) := by
  cases op with
  | eq => exact alt_first (map_some (word_own "==" next) _) _
  | ne =>
    unfold cmpOp
    rw [alt_skip (map_none (word_head (c := '=') rfl (by simp [CmpOp.chars])) _)]
    exact alt_first (map_some (word_own "!=" next) _) _

theorem boolOp_chars (op : BoolOp) (next : Text) : boolOp (op.chars ++ next) = some (op,next) := by
  unfold boolOp
  cases op with
  | or => exact alt_first (map_some (word_own "||" next) _) _
  | and =>
    rw [alt_skip (map_none (word_head (c := '|') rfl (by simp [BoolOp.chars])) _)]
    exact alt_first (map_some (word_own "&&" next) _) _
  | xor =>
    rw [alt_skip (map_none (word_head (c := '|') rfl (by simp [BoolOp.chars])) _),
      alt_skip (map_none (word_head (c := '&') rfl (by simp [BoolOp.chars])) _)]
    exact alt_first (map_some (word_own "^^" next) _) _

theorem first_chars (c : Char) (isFirst : isIdentFirst c = true) : isSpace c = false ∧ c ≠ '(' := by
  constructor
  · by_contra blank
    simp only [isSpace,Bool.not_eq_false,Bool.or_eq_true,beq_iff_eq] at blank
    rcases blank with rfl | rfl
    · exact absurd isFirst (by decide)
    · exact absurd isFirst (by decide)
  · rintro rfl
    exact absurd isFirst (by decide)

def definedName : Name where
  first := 'd'
  rest := ['e','f','i','n','e','d']
  isFirst := rfl
  isRest := List.all_eq_true.mp rfl

theorem definedName_chars : "defined".toList = definedName.chars := by decide +kernel

theorem blank_past (blank : Blank) {next : Text} (past : Past isIdentMiddle next) : Past isIdentMiddle (blank.1 ++ next) := by
  intro c isHead
  cases shape : blank.1 with
  | nil =>
    rw [shape] at isHead
    exact past c isHead
  | cons first rest =>
    rw [shape] at isHead
    obtain rfl := Option.some.inj isHead
    have isBlank : isSpace first = true := blank.2 first (by rw [shape]; exact List.mem_cons_self)
    simp only [isSpace,Bool.or_eq_true,beq_iff_eq] at isBlank
    rcases isBlank with rfl | rfl
    · decide
    · decide

theorem cmpOp_past (op : CmpOp) (next : Text) :
    Past isSpace (op.chars ++ next) ∧ Past isIdentMiddle (op.chars ++ next) := by
  cases op with
  | eq => exact ⟨past_cons (by decide) _,past_cons (by decide) _⟩
  | ne => exact ⟨past_cons (by decide) _,past_cons (by decide) _⟩

theorem boolOp_past (op : BoolOp) (next : Text) : Past isSpace (op.chars ++ next) := by
  cases op with
  | and => exact past_cons (by decide) _
  | or => exact past_cons (by decide) _
  | xor => exact past_cons (by decide) _

-- A test is read whatever follows.
theorem test_reads (notRoot : TextParser IfCheck) (test : Test) (next : Text) :
    ifCondCheckOf notRoot (test.chars ++ next) = some (test.check,next) := by
  unfold ifCondCheckOf
  cases test with
  | cmp name before op after value =>
    have shape : (Test.cmp name before op after value).chars ++ next = name.chars ++ (before.1 ++ (op.chars ++ (after.1 ++
        ('"' :: (quoted value ++ ['"']) ++ next)))) := by
      simp [Test.chars_cmp]
    rw [shape]
    have isName := ident_name name (blank_past before (cmpOp_past op (after.1 ++ ('"' :: (quoted value ++ ['"']) ++ next))).2)
    have isOp := delimited_some (space0_blank before (cmpOp_past op (after.1 ++ ('"' :: (quoted value ++ ['"']) ++ next))).1)
      (cmpOp_chars op _) (space0_blank after (past_cons (by decide) _))
    exact alt_first (map_some (pair_some isName (pair_some isOp (string_quoted value next))) _) _
  | defined before name =>
    have shape : (Test.defined before name).chars ++ next = definedName.chars ++ (before.1 ++ ('(' :: (name.chars ++ (')' :: next)))) := by
      simp [Test.chars_defined,definedName_chars]
    rw [shape]
    have isName := ident_name definedName (blank_past before (past_cons (by decide : isIdentMiddle '(' = false) (name.chars ++ (')' :: next))))
    have noOp : delimited space0 cmpOp space0 (before.1 ++ ('(' :: (name.chars ++ (')' :: next)))) = none := by
      have blanks := space0_blank before (past_cons (by decide : isSpace '(' = false) (name.chars ++ (')' :: next)))
      have refused : cmpOp ('(' :: (name.chars ++ (')' :: next))) = none := by
        refine alt_none fun parser member => ?_
        simp only [List.mem_cons,List.not_mem_nil,or_false] at member
        rcases member with rfl | rfl
        · exact map_none (word_head (c := '=') rfl (by simp)) _
        · exact map_none (word_head (c := '!') rfl (by simp)) _
      simp [delimited,preceded,terminated,map,pair,blanks,refused]
    have noCmp : pair ident (pair (delimited space0 cmpOp space0) string)
        (definedName.chars ++ (before.1 ++ ('(' :: (name.chars ++ (')' :: next))))) = none := by
      simp [pair,isName,noOp]
    rw [alt_skip (map_none noCmp _)]
    have opens : pair (word "defined") space0 (definedName.chars ++ (before.1 ++ ('(' :: (name.chars ++ (')' :: next))))) =
        some (((),before.1),'(' :: (name.chars ++ (')' :: next))) :=
      pair_some (word_some.mpr (by rw [definedName_chars])) (space0_blank before (past_cons (by decide) _))
    have named := delimited_some (word_own "(" (name.chars ++ (')' :: next)))
      (ident_name name (past_cons (by decide : isIdentMiddle ')' = false) next)) (word_own ")" next)
    exact alt_first (map_some (map_some (pair_some opens named) _) _) _

theorem test_head (test : Test) : ∃ c rest, test.chars = c :: rest ∧ isSpace c = false := by
  cases test with
  | cmp name before op after value => exact ⟨_,_,rfl,(first_chars _ name.isFirst).1⟩
  | defined before name =>
    refine ⟨'d',_,by rw [Test.chars_defined,definedName_chars]; rfl,by decide⟩

theorem paren_reads {notRoot : TextParser IfCheck} {inner next : Text} {check : IfCheck}
    (reads : notRoot inner = some (check,next)) : ifCondCheckOf notRoot ('(' :: inner) = some (check,next) := by
  unfold ifCondCheckOf
  have noName : ident ('(' :: inner) = none := map_none (pair_none (by simp [takeWhile1,isIdentFirst]) _) _
  have noDefined : preceded (pair (word "defined") space0) (delimited (word "(") ident (word ")")) ('(' :: inner) = none :=
    map_none (pair_none (pair_none (word_head (c := 'd') (by rw [definedName_chars]; rfl) (by simp)) _) _) _
  rw [alt_skip (map_none (pair_none noName _) _),alt_skip (map_none noDefined _)]
  exact alt_first (map_some (pair_some (word_own "(" inner) reads) _) _

end Reading

section Parsing

mutual

theorem Operand.size_pos : (operand : Operand) → 0 < operand.size
  | .test _ _ => Nat.one_pos
  | .paren _ _ => Nat.succ_pos _

theorem Condition.size_pos : (condition : Condition) → 0 < condition.size
  | .single operand => operand.size_pos
  | .chain operand _ _ _ => Nat.add_pos_left operand.size_pos _

end

mutual

theorem Operand.size_le : (operand : Operand) → operand.size ≤ operand.chars.length
  | .test test after => by
    obtain ⟨c,left,shape,_⟩ := test_head test
    simp [Operand.size,Operand.chars,shape]
  | .paren inner after => by
    have few := inner.size_le
    simp only [Operand.size,Operand.chars,List.length_cons,List.length_append]
    omega

theorem Condition.size_le : (condition : Condition) → condition.size ≤ condition.chars.length
  | .single operand => operand.size_le
  | .chain operand _ _ rest => by
    have few := operand.size_le
    have more := rest.size_le
    simp only [Condition.size,Condition.chars,List.length_append]
    omega

end

theorem operand_head (operand : Operand) (next : Text) : Past isSpace (operand.chars ++ next) := by
  cases operand with
  | test test after =>
    obtain ⟨c,rest,shape,other⟩ := test_head test
    rw [Operand.chars,shape]
    exact past_cons other _
  | paren inner after => exact past_cons (by decide) _

theorem condition_head (condition : Condition) (next : Text) : Past isSpace (condition.chars ++ next) := by
  cases condition with
  | single operand => exact operand_head operand next
  | chain operand op after rest =>
    rw [Condition.chars,List.append_assoc]
    exact operand_head operand _

theorem operand_reads (notRoot : TextParser IfCheck) (operand : Operand)
    (reads : ∀ inner after next, operand = .paren inner after → notRoot (inner.chars ++ (')' :: next)) = some (inner.check,next))
    {next : Text} (past : Past isSpace next) :
    terminated (ifCondCheckOf notRoot) space0 (operand.chars ++ next) = some (operand.check,next) := by
  cases operand with
  | test test after =>
    have own := test_reads notRoot test (after.1 ++ next)
    rw [Operand.chars,List.append_assoc]
    exact map_some (pair_some own (space0_blank after past)) _
  | paren inner after =>
    have own := paren_reads (reads inner after (after.1 ++ next) rfl)
    have shape : (Operand.paren inner after).chars ++ next = '(' :: (inner.chars ++ (')' :: (after.1 ++ next))) := by
      simp [Operand.chars]
    rw [shape]
    exact map_some (pair_some own (space0_blank after past)) _

theorem rest_reads {following : TextParser IfCheck} (op : BoolOp) (after : Blank) (rest : Condition) {next left : Text}
    (reads : following (rest.chars ++ next) = some (rest.check,left)) :
    pair (terminated boolOp space0) following (op.chars ++ (after.1 ++ (rest.chars ++ next))) =
      some ((op,rest.check),left) :=
  pair_some (map_some (pair_some (boolOp_chars op _) (space0_blank after (condition_head rest next))) _) reads

theorem notRoot_reads (fuel : Nat) : ∀ (condition : Condition) (next : Text), condition.size ≤ fuel →
    ifCondNotRoot fuel (condition.chars ++ (')' :: next)) = some (condition.check,next) := by
  induction fuel with
  | zero =>
    intro condition next few
    have some_ := condition.size_pos
    omega
  | succ fuel ih =>
    intro condition next few
    unfold ifCondNotRoot
    cases condition with
    | single operand =>
      have own := operand_reads (ifCondNotRoot fuel) operand (fun inner after next isParen => by
        rw [isParen] at few
        exact ih inner next (Nat.le_of_succ_le_succ few)) (past_cons (by decide : isSpace ')' = false) next)
      have noOp : boolOp (')' :: next) = none := by
        refine alt_none fun parser member => ?_
        simp only [List.mem_cons,List.not_mem_nil,or_false] at member
        rcases member with rfl | rfl | rfl
        · exact map_none (word_head (c := '|') rfl (by simp)) _
        · exact map_none (word_head (c := '&') rfl (by simp)) _
        · exact map_none (word_head (c := '^') rfl (by simp)) _
      have tail : alt [map (pair (terminated boolOp space0) (ifCondNotRoot fuel)) some,map (word ")") fun _ => none]
          (')' :: next) = some (none,next) := by
        have refused : pair (terminated boolOp space0) (ifCondNotRoot fuel) (')' :: next) = none :=
          pair_none (map_none (pair_none noOp _) _) _
        rw [alt_skip (map_none refused _)]
        exact alt_first (map_some (word_own ")" next) _) _
      exact map_some (pair_some own tail) _
    | chain operand op after rest =>
      simp only [Condition.size] at few
      have restSome := rest.size_pos
      have operandSome := operand.size_pos
      have own := operand_reads (ifCondNotRoot fuel) operand (fun inner after next isParen => by
        rw [isParen,Operand.size] at few
        exact ih inner next (by omega)) (boolOp_past op (after.1 ++ (rest.chars ++ (')' :: next))))
      have following := rest_reads op after rest (ih rest next (by omega))
      have shape : (Condition.chain operand op after rest).chars ++ (')' :: next) =
          operand.chars ++ (op.chars ++ (after.1 ++ (rest.chars ++ (')' :: next)))) := by
        simp [Condition.chars]
      rw [shape]
      exact map_some (pair_some own (alt_first (map_some following _) _)) _

theorem check_reads (operand : Operand) {next : Text} (past : Past isSpace next) :
    terminated ifCondCheck space0 (operand.chars ++ next) = some (operand.check,next) := by
  have few := operand.size_le
  exact operand_reads _ operand (fun inner after left isParen => by
    refine notRoot_reads _ inner left ?_
    rw [isParen,Operand.size] at few
    rw [isParen,List.length_append]
    omega) past

theorem endOfLine_refused {next : Text} (past : Past isSpace next) (noComment : next.head? ≠ some '#')
    (noEnd : lineEnding next = none) : pair endOfLine (peek lineEnding) next = none := by
  have blanks : space0 next = some ([],next) := takeWhile_past (List.forall_mem_nil _) past
  have ended : endOfLine next = some ((),next) :=
    map_some (pair_some (opt_some blanks) (opt_none (map_none (pair_none (word_head (c := '#') rfl noComment) _) _))) _
  simp [pair,ended,peek,noEnd]

theorem ifCondFrom_reads {next : Text} (ends : Ends next) : ∀ (fuel : Nat) (condition : Condition), condition.size ≤ fuel →
    ifCondFrom fuel (condition.chars ++ next) = some (condition.check,next) := by
  obtain ⟨ending,more,rfl⟩ := ends
  have past : Past isSpace (ending.chars ++ more) := by
    cases ending with
    | lf => exact past_cons (by decide) _
    | crlf => exact past_cons (by decide) _
  have ended : pair endOfLine (peek lineEnding) (ending.chars ++ more) = some (((),()),ending.chars ++ more) := by
    have blanks : space0 (ending.chars ++ more) = some ([],ending.chars ++ more) := takeWhile_past (List.forall_mem_nil _) past
    have noComment : (ending.chars ++ more).head? ≠ some '#' := by
      cases ending with
      | lf => simp [Ending.chars]
      | crlf => simp [Ending.chars]
    have atEnd : lineEnding (ending.chars ++ more) = some ((),more) := by
      cases ending with
      | lf => exact alt_first (word_own "\n" more) _
      | crlf =>
        unfold lineEnding
        rw [alt_skip (word_head (c := '\n') rfl (by simp [Ending.chars]))]
        exact alt_first (word_own "\r\n" more) _
    refine pair_some (map_some (pair_some (opt_some blanks)
      (opt_none (map_none (pair_none (word_head (c := '#') rfl noComment) _) _))) _) ?_
    simp [peek,atEnd]
  intro fuel
  induction fuel with
  | zero =>
    intro condition few
    have some_ := condition.size_pos
    omega
  | succ fuel ih =>
    intro condition few
    unfold ifCondFrom
    cases condition with
    | single operand =>
      exact map_some (pair_some (check_reads operand past) (alt_first (map_some ended _) _)) _
    | chain operand op after rest =>
      simp only [Condition.size] at few
      have operandSome := operand.size_pos
      have own := check_reads operand (boolOp_past op (after.1 ++ (rest.chars ++ (ending.chars ++ more))))
      have following := rest_reads op after rest (ih rest (by omega))
      have notEnded : pair endOfLine (peek lineEnding) (op.chars ++ (after.1 ++ (rest.chars ++ (ending.chars ++ more)))) = none := by
        refine endOfLine_refused (boolOp_past op _) ?_ (alt_none fun parser member => ?_)
        · cases op <;> simp [BoolOp.chars]
        · simp only [List.mem_cons,List.not_mem_nil,or_false] at member
          rcases member with rfl | rfl
          · refine word_head (c := '\n') rfl ?_
            cases op <;> simp [BoolOp.chars]
          · refine word_head (c := '\r') rfl ?_
            cases op <;> simp [BoolOp.chars]
      have shape : (Condition.chain operand op after rest).chars ++ (ending.chars ++ more) =
          operand.chars ++ (op.chars ++ (after.1 ++ (rest.chars ++ (ending.chars ++ more)))) := by
        simp [Condition.chars]
      rw [shape]
      have tail : alt [map (pair endOfLine (peek lineEnding)) fun _ => none,
          map (pair (terminated boolOp space0) (ifCondFrom fuel)) some]
          (op.chars ++ (after.1 ++ (rest.chars ++ (ending.chars ++ more)))) =
            some (some (op,rest.check),ending.chars ++ more) := by
        rw [alt_skip (map_none notEnded _)]
        exact alt_first (map_some following _) _
      exact map_some (pair_some own tail) _

theorem ifCond_reads (condition : Condition) {next : Text} (ends : Ends next) :
    ifCond (condition.chars ++ next) = some (condition.check,next) := by
  have few := condition.size_le
  refine ifCondFrom_reads ends _ condition ?_
  rw [List.length_append]
  omega

end Parsing

section Evaluation

variable {state : PreProcessorState}

theorem test_value {test : Test} (known : test.Known state) : checkCond state test.check = .ok (test.holds state) := by
  cases test with
  | cmp name before op after value =>
    obtain ⟨defined,isDefined⟩ := known
    simp [Test.check,Test.holds,checkCond,isDefined]
  | defined before name => rfl

mutual

theorem operand_value : (operand : Operand) → operand.Known state → checkCond state operand.check = .ok (operand.holds state)
  | .test _ _, known => test_value known
  | .paren inner _, known => condition_value inner known

theorem condition_value : (condition : Condition) → condition.Known state →
    checkCond state condition.check = .ok (condition.holds state)
  | .single operand, known => operand_value operand known
  | .chain operand op _ rest, known => by
    have left := operand_value operand known.1
    have right := condition_value rest known.2
    simp only [Condition.check,checkCond,left,right]
    rfl

end

end Evaluation

-- A condition is read to its end, and each operator is applied to the operand before it and all that follows it.
theorem ifCond_groups (state : PreProcessorState) (condition : Condition) (known : condition.Known state) (ending : Ending)
    (more : Text) : ∃ check, ifCond (condition.chars ++ (ending.chars ++ more)) = some (check,ending.chars ++ more) ∧
      checkCond state check = .ok (condition.holds state) :=
  ⟨condition.check,ifCond_reads condition ⟨ending,more,rfl⟩,condition_value condition known⟩

section Examples

def noBlank : Blank := ⟨[],List.forall_mem_nil _⟩

def isDefined (c : Char) (isFirst : isIdentFirst c = true) : Operand :=
  .test (.defined noBlank ⟨c,[],isFirst,List.forall_mem_nil _⟩) noBlank

-- defined(A)&&defined(B)||defined(C)
def threeTests : Condition :=
  .chain (isDefined 'A' (by decide)) .and noBlank (.chain (isDefined 'B' (by decide)) .or noBlank
    (.single (isDefined 'C' (by decide))))

def onlyC : PreProcessorState := fun name => if name = ['C'] then some none else none

theorem ifCond_groups_tests : threeTests.Known onlyC ∧
    ∃ check, ifCond (threeTests.chars ++ (Ending.lf.chars ++ [])) = some (check,Ending.lf.chars ++ []) ∧
      checkCond onlyC check = .ok false :=
  have known : threeTests.Known onlyC := ⟨trivial,trivial,trivial⟩
  ⟨known,ifCond_groups onlyC threeTests known .lf []⟩

-- The conventional value of the condition is another one.
theorem threeTests_differs : threeTests.Known onlyC ∧
    ∃ check rest, ifCond (threeTests.chars ++ ['\n']) = some (check,rest) ∧ checkCond onlyC check = .ok false ∧
      threeTests.conventional onlyC = true := by
  have known : threeTests.Known onlyC := ⟨trivial,trivial,trivial⟩
  refine ⟨known,_,_,ifCond_reads threeTests ⟨.lf,[],rfl⟩,(condition_value threeTests known).trans ?_,?_⟩
  · decide
  · decide

end Examples

end Rsleigh.Preprocessor

import Rsleigh.Agent.ContentId
import Rsleigh.Lib.CodeSpan

namespace Rsleigh.Investigation.Handoff

open Agent

-- agent/investigation.rs.
def ids (value : Json) : List String :=
  value.items.filterMap Json.asText

-- `char::is_control`, and the separators of lines and paragraphs.
def lineBreak (c : Char) : Bool :=
  c.toNat < 32 || (127 ≤ c.toNat && c.toNat < 160) || c.toNat = 0x2028 || c.toNat = 0x2029

def backtick : Char := Char.ofNat 96

def markdownChar (c : Char) : List Char :=
  if lineBreak c then [' ']
  else if c ∈ ['\\',backtick,'<','>','[',']'] then ['\\',c]
  else [c]

-- A text as it is, and any other value as it is printed.
def rawText (value : Json) : List Char :=
  match value.asText with
  | some text => text.toList
  | none => canonicalText value

def markdownText (value : Json) : String :=
  String.ofList ((rawText value).flatMap markdownChar)

def flatten (text : String) : List Char :=
  text.toList.map fun c => if lineBreak c then ' ' else c

def longest (flat : List Char) : Nat :=
  (CodeSpan.runs backtick flat).max?.getD 0

-- What stands between the fences.
def codeContent (text : String) : List Char :=
  let flat := flatten text
  let pad := if flat.head? = some backtick ∨ flat.getLast? = some backtick then [' '] else []
  pad ++ flat ++ pad

def codeFence (text : String) : List Char :=
  List.replicate (longest (flatten text) + 1) backtick

def markdownCode (text : String) : String :=
  String.ofList (codeFence text ++ codeContent text ++ codeFence text)

def noneIfEmpty (text : String) : String :=
  if text = "" then "- none\n" else text

def optionalText (value : Json) : String :=
  if value.isNull then "" else markdownText value

def list (value : Json) : String :=
  let items := (ids value).map fun id => markdownText (.text id)
  if items.isEmpty then "none" else ", ".intercalate items

-- A value as it is displayed.
def shown (value : Json) : String :=
  String.ofList (canonicalText value)

-- One line of the text: what it starts with, and the rest.
def line (start rest : String) : String :=
  start ++ rest ++ "\n"

def heading (doc : Json) : String :=
  line "# Investigation " (markdownText (doc.get "id") ++ " (revision " ++ markdownText (doc.get "revision") ++ ")") ++
  line "" "" ++
  line "Question: " (markdownText (doc.get "question")) ++
  line "Binary: sha256=" (markdownText ((doc.get "target").get "binary_sha256") ++ " format=" ++
    markdownText ((doc.get "target").get "format") ++ " arch=" ++ markdownText ((doc.get "target").get "architecture") ++
    " image_base=" ++ markdownText ((doc.get "target").get "imagebase")) ++
  line "Tool: rsleigh " (markdownText ((doc.get "created_by").get "version"))

def statusSection (summary : Json) : String :=
  line "" "" ++ line "## Status" "" ++ line "" "" ++
  line "Open: " (shown (summary.get "open") ++ " · Answered (evidence-checked): " ++ shown (summary.get "answered") ++
    " · Withdrawn (not answers): " ++ shown (summary.get "withdrawn") ++ " · Out of scope: " ++
    shown (summary.get "out_of_scope") ++ " · Contradicted: " ++ shown (summary.get "contradicted"))

def queryLines (query : Json) : String :=
  line "  - Next: " (markdownCode ((query.get "command").asText.getD "") ++ " — " ++ markdownText (query.get "reason")) ++
  (if (query.get "platform_note").asText.isSome then line "  - Note: " (markdownText (query.get "platform_note"))
   else "")

def openIssue (queries : List Json) (issue : Json) : String :=
  line "- [" (markdownText (issue.get "id") ++ "] " ++ markdownText (issue.get "text")) ++
  line "  - Supporting: " (list (issue.get "supporting") ++ "; contradicting: " ++ list (issue.get "contradicting")) ++
  (if (issue.get "source").asText.isSome then line "  - Source: " (markdownText (issue.get "source")) else "") ++
  String.join ((queries.filter fun query => query.get "issue" = issue.get "id").map queryLines)

def closedIssue (issue : Json) : String :=
  let resolution := issue.get "resolution"
  line "- [" (markdownText (issue.get "id") ++ "] " ++ markdownText (issue.get "text") ++ " — " ++
    markdownText (issue.get "state") ++ ": " ++ optionalText (resolution.get "note") ++ " (evidence: " ++
    list (resolution.get "evidence") ++ "; " ++ markdownText (resolution.get "validation") ++ ")") ++
  (if (ids (issue.get "contradicting")).isEmpty then ""
   else line "  - Contradicting evidence retained: " (list (issue.get "contradicting")))

def entryLine (entry : Json) : String :=
  line "- [" (markdownText (entry.get "id") ++ "] " ++ markdownText (entry.get "text") ++ " (evidence: " ++
    list (entry.get "evidence") ++ ")")

def recordLine (record : Json) : String :=
  if record.get "available" = .bool true then
    line "- " (markdownText (record.get "id") ++ " " ++ markdownText (record.get "kind") ++ " " ++
      markdownText (record.get "status") ++ " function=" ++ markdownText (record.get "function_address") ++
      " complete=" ++ markdownText (record.get "complete"))
  else line "- " (markdownText (record.get "id") ++ " (unavailable)")

def historyLine (entry : Json) : String :=
  line "- r" (markdownText (entry.get "revision") ++ " " ++ markdownText (entry.get "action") ++ " " ++
    optionalText (entry.get "subject"))

-- A section: its heading between empty lines, and its entries.
def part (name entries : String) : String :=
  line "" "" ++ line name "" ++ line "" "" ++ entries

def isOpen (issue : Json) : Bool :=
  issue.get "state" = .text "open"

def handoff (view : Json) : String :=
  let doc := view.get "investigation"
  let issues := (doc.get "issues").items
  let queries := (view.get "next_queries").items
  heading doc ++
  statusSection (view.get "summary") ++
  part "## Unresolved" (noneIfEmpty (String.join ((issues.filter isOpen).map (openIssue queries)))) ++
  part "## Closed" (noneIfEmpty (String.join ((issues.filter fun issue => !isOpen issue).map closedIssue))) ++
  part "## Observations" (noneIfEmpty (String.join ((doc.get "observations").items.map entryLine))) ++
  part "## Analyst inferences (provisional, not verified)"
    (noneIfEmpty (String.join ((doc.get "inferences").items.map entryLine))) ++
  part "## Evidence" (noneIfEmpty (String.join ((view.get "evidence").items.map recordLine))) ++
  part "## History" (String.join ((doc.get "history").items.map historyLine))

section Shape

mutual

-- The same value but for the texts in it. A number with a fraction is printed as a numeral.
def SameShape : Json → Json → Prop
  | .null, .null => True
  | .bool left, .bool right => left = right
  | .number left, .number right => left = right
  | .real left, .real right => left = right ∧ left.toList.all isNumeral = true
  | .text _, .text _ => True
  | .array left, .array right => SameItems left right
  | .object left, .object right => SameFields left right
  | _, _ => False

def SameItems : List Json → List Json → Prop
  | [], [] => True
  | left :: lefts, right :: rights => SameShape left right ∧ SameItems lefts rights
  | _, _ => False

def SameFields : List (String × Json) → List (String × Json) → Prop
  | [], [] => True
  | (key, left) :: lefts, (other, right) :: rights => key = other ∧ SameShape left right ∧ SameFields lefts rights
  | _, _ => False

end

theorem sameItems_forall₂ {lefts rights : List Json} (same : SameItems lefts rights) :
    List.Forall₂ SameShape lefts rights := by
  induction lefts generalizing rights with
  | nil =>
    cases rights with
    | nil => exact List.Forall₂.nil
    | cons right rights => exact same.elim
  | cons left lefts ih =>
    cases rights with
    | nil => exact same.elim
    | cons right rights => exact List.Forall₂.cons same.1 (ih same.2)

theorem field_shape {key : String} {lefts rights : List (String × Json)} (same : SameFields lefts rights) :
    SameShape ((Json.field key lefts).getD .null) ((Json.field key rights).getD .null) := by
  induction lefts generalizing rights with
  | nil =>
    cases rights with
    | nil => exact trivial
    | cons right rights => exact same.elim
  | cons left lefts ih =>
    cases rights with
    | nil => exact same.elim
    | cons right rights =>
      obtain ⟨name,value⟩ := left
      obtain ⟨other,otherValue⟩ := right
      obtain ⟨named,shape,later⟩ := same
      subst named
      by_cases wanted : key = name
      · rw [Json.field,Json.field,if_pos wanted,if_pos wanted]
        exact shape
      · rw [Json.field,Json.field,if_neg wanted,if_neg wanted]
        exact ih later

variable {left right : Json}

theorem get_shape (same : SameShape left right) (key : String) : SameShape (left.get key) (right.get key) := by
  cases left with
  | object lefts =>
    cases right with
    | object rights => exact field_shape same
    | _ => exact same.elim
  | _ => cases right <;> first | exact same.elim | exact trivial

theorem items_shape (same : SameShape left right) : List.Forall₂ SameShape left.items right.items := by
  cases left with
  | array lefts =>
    cases right with
    | array rights => exact sameItems_forall₂ same
    | _ => exact same.elim
  | _ => cases right <;> first | exact same.elim | exact List.Forall₂.nil

theorem isText_shape (same : SameShape left right) : left.asText.isSome = right.asText.isSome := by
  cases left <;> cases right <;> first | exact same.elim | rfl

theorem isTrue_shape (same : SameShape left right) : left = .bool true ↔ right = .bool true := by
  cases left with
  | bool value =>
    cases right with
    | bool other => rw [show value = other from same]
    | _ => exact same.elim
  | _ => cases right <;> first | exact same.elim | simp

theorem texts_shape {lefts rights : List Json} (same : List.Forall₂ SameShape lefts rights) :
    (lefts.filterMap Json.asText).isEmpty = (rights.filterMap Json.asText).isEmpty := by
  induction same with
  | nil => rfl
  | cons shape _ ih =>
    have sameText := isText_shape shape
    rw [List.filterMap_cons,List.filterMap_cons]
    split <;> split <;> simp_all

theorem ids_shape (same : SameShape left right) : (ids left).isEmpty = (ids right).isEmpty :=
  texts_shape (items_shape same)

end Shape

section Lines

-- What ends a line.
def endsLine (c : Char) : Bool := c = '\n' || c = '\r'

def OneLine (text : List Char) : Prop := ∀ c ∈ text, endsLine c = false

theorem oneLine_of_all {text : List Char} (plain : (text.all fun c => !endsLine c) = true) : OneLine text := by
  intro c member
  simpa using List.all_eq_true.mp plain c member

theorem oneLine_cons {c : Char} {text : List Char} (plain : endsLine c = false) (rest : OneLine text) :
    OneLine (c :: text) := by
  intro d member
  rcases List.mem_cons.mp member with rfl | later
  · exact plain
  · exact rest d later

instance (text : List Char) : Decidable (OneLine text) :=
  decidable_of_iff ((text.all fun c => !endsLine c) = true) (by simp [OneLine])

theorem oneLine_append {first second : List Char} (one : OneLine first) (two : OneLine second) :
    OneLine (first ++ second) := by
  intro c member
  rcases List.mem_append.mp member with before | after
  · exact one c before
  · exact two c after

theorem endsLine_iff {c : Char} : endsLine c = true ↔ c = '\n' ∨ c = '\r' := by
  simp [endsLine]

theorem endsLine_break {c : Char} (ends : endsLine c = true) : lineBreak c = true := by
  rcases endsLine_iff.mp ends with rfl | rfl <;> decide

theorem markdownChar_oneLine (c : Char) : OneLine (markdownChar c) := by
  unfold markdownChar
  intro d member
  by_cases breaks : lineBreak c = true
  · rw [if_pos breaks] at member
    rw [List.mem_singleton.mp member]
    decide
  · have plain : endsLine c = false := by
      by_contra ends
      exact breaks (endsLine_break (by simpa using ends))
    rw [if_neg breaks] at member
    split at member
    · rcases List.mem_cons.mp member with rfl | member
      · decide
      · rw [List.mem_singleton.mp member]
        exact plain
    · rw [List.mem_singleton.mp member]
      exact plain

theorem markdownText_oneLine (value : Json) : OneLine (markdownText value).toList := by
  unfold markdownText
  rw [String.toList_ofList]
  intro c member
  obtain ⟨source,_,member⟩ := List.mem_flatMap.mp member
  exact markdownChar_oneLine source c member

theorem flatten_oneLine (text : String) : OneLine (flatten text) := by
  intro c member
  obtain ⟨source,_,rfl⟩ := List.mem_map.mp member
  by_cases breaks : lineBreak source = true
  · rw [if_pos breaks]
    decide
  · rw [if_neg breaks]
    by_contra ends
    exact breaks (endsLine_break (by simpa using ends))

theorem markdownCode_oneLine (text : String) : OneLine (markdownCode text).toList := by
  unfold markdownCode
  rw [String.toList_ofList]
  have fence : OneLine (codeFence text) := by
    intro c member
    rw [List.eq_of_mem_replicate member]
    decide
  have content : OneLine (codeContent text) := by
    unfold codeContent
    have pad : OneLine (if (flatten text).head? = some backtick ∨ (flatten text).getLast? = some backtick then [' ']
        else []) := by
      intro c member
      split at member
      · rw [List.mem_singleton.mp member]
        decide
      · cases member
    exact oneLine_append (oneLine_append pad (flatten_oneLine text)) pad
  exact oneLine_append (oneLine_append fence content) fence

theorem optionalText_oneLine (value : Json) : OneLine (optionalText value).toList := by
  unfold optionalText
  split
  · intro c member
    cases member
  · exact markdownText_oneLine value

theorem intercalate_oneLine {texts : List String} (each : ∀ text ∈ texts, OneLine text.toList) :
    OneLine (", ".intercalate texts).toList := by
  induction texts with
  | nil =>
    intro c member
    simp at member
  | cons text rest ih =>
    have first := each text List.mem_cons_self
    have later := ih fun text member => each text (List.mem_cons_of_mem _ member)
    cases rest with
    | nil =>
      rw [String.intercalate_singleton]
      exact first
    | cons other rest =>
      rw [String.intercalate_cons_cons,String.toList_append,String.toList_append]
      exact oneLine_append (oneLine_append first (oneLine_of_all (by decide +kernel))) later

theorem list_oneLine (value : Json) : OneLine (list value).toList := by
  unfold list
  simp only []
  split
  · exact oneLine_of_all (by decide +kernel)
  · refine intercalate_oneLine ?_
    intro text member
    obtain ⟨id,_,rfl⟩ := List.mem_map.mp member
    exact markdownText_oneLine _

end Lines

section Shown

theorem escapeChar_oneLine (c : Char) : OneLine (escapeChar c) := by
  cases special : escaped c with
  | true =>
    rcases escapeChar_special special with ⟨x,_,entry,shape⟩ | ⟨small,shape⟩
    · rw [shape]
      intro d member
      rcases List.mem_cons.mp member with rfl | member
      · decide
      · rw [List.mem_singleton.mp member]
        have plain : ∀ pair ∈ shortEscapes, endsLine pair.1 = false := by decide
        exact plain _ entry
    · rw [shape]
      have digit : ∀ value : Fin 16, endsLine (Nat.digitChar value) = false := by decide
      have digits : OneLine [Nat.digitChar (c.toNat / 16),Nat.digitChar (c.toNat % 16)] :=
        oneLine_cons (digit ⟨c.toNat / 16,by omega⟩) (oneLine_cons (digit ⟨c.toNat % 16,by omega⟩) (oneLine_of_all rfl))
      exact oneLine_append (oneLine_of_all (by decide) : OneLine ['\\','u','0','0']) digits
  | false =>
    rw [(escapeChar_plain special).1]
    intro d member
    rw [List.mem_singleton.mp member]
    by_contra ends
    rcases endsLine_iff.mp (by simpa using ends) with rfl | rfl <;> exact absurd special (by decide)

theorem quoted_oneLine (text : String) : OneLine (quoted text) := by
  unfold quoted
  refine oneLine_append (oneLine_cons (by decide) ?_) (oneLine_of_all (by decide))
  intro c member
  obtain ⟨source,_,member⟩ := List.mem_flatMap.mp member
  exact escapeChar_oneLine source c member

theorem numeral_oneLine {digits : List Char} (numeral : digits.all isNumeral = true) : OneLine digits := by
  intro c member
  have isNumeral := List.all_eq_true.mp numeral c member
  by_contra ends
  rcases endsLine_iff.mp (by simpa using ends) with rfl | rfl <;> exact absurd isNumeral (by decide)

theorem number_oneLine (value : Int) : OneLine (toString value).toList :=
  numeral_oneLine (List.all_eq_true.mpr fun c member => (numeral_toString value c member).1)

theorem wrapped_oneLine {opens closes : Char} {text : List Char} (opening : endsLine opens = false)
    (closed : endsLine closes = false) (inner : OneLine text) : OneLine (opens :: text ++ [closes]) := by
  intro c member
  rcases List.mem_append.mp member with member | member
  · rcases List.mem_cons.mp member with rfl | member
    · exact opening
    · exact inner c member
  · rw [List.mem_singleton.mp member]
    exact closed

-- What may be displayed raw.
def Plain (value : Json) : Prop := OneLine (canonicalText value)

mutual

theorem shown_plain : ∀ left right : Json, SameShape left right → Plain left ∧ Plain right
  | .null, right, same => by
    cases right <;> first | exact same.elim | exact ⟨oneLine_of_all (by decide +kernel),oneLine_of_all (by decide +kernel)⟩
  | .bool left, right, same => by
    have plain (value : Bool) : Plain (.bool value) := by cases value <;> exact oneLine_of_all (by decide +kernel)
    cases right <;> first | exact same.elim | exact ⟨plain _,plain _⟩
  | .number left, right, same => by
    cases right <;> first | exact same.elim | exact ⟨number_oneLine _,number_oneLine _⟩
  | .real left, right, same => by
    cases right with
    | real right =>
      obtain ⟨rfl,numeral⟩ := same
      exact ⟨numeral_oneLine numeral,numeral_oneLine numeral⟩
    | _ => exact same.elim
  | .text left, right, same => by
    cases right <;> first | exact same.elim | exact ⟨quoted_oneLine _,quoted_oneLine _⟩
  | .array left, right, same => by
    cases right with
    | array right =>
      obtain ⟨one,two⟩ := shownItems_plain left right same
      exact ⟨wrapped_oneLine (by decide) (by decide) one,wrapped_oneLine (by decide) (by decide) two⟩
    | _ => exact same.elim
  | .object left, right, same => by
    cases right with
    | object right =>
      obtain ⟨one,two⟩ := shownFields_plain left right same
      exact ⟨wrapped_oneLine (by decide) (by decide) one,wrapped_oneLine (by decide) (by decide) two⟩
    | _ => exact same.elim

theorem shownItems_plain : ∀ lefts rights : List Json, SameItems lefts rights →
    OneLine (canonicalItems lefts) ∧ OneLine (canonicalItems rights)
  | [], rights, same => by
    cases rights with
    | nil => exact ⟨oneLine_of_all rfl,oneLine_of_all rfl⟩
    | cons right rights => exact same.elim
  | left :: lefts, rights, same => by
    cases rights with
    | nil => exact same.elim
    | cons right rights =>
      have first := shown_plain left right same.1
      have later := shownItems_plain lefts rights same.2
      have join (value : Json) (rest : List Json) (plain : Plain value) (items : OneLine (canonicalItems rest)) :
          OneLine (canonicalItems (value :: rest)) := by
        cases rest with
        | nil => exact plain
        | cons other rest => exact oneLine_append plain (oneLine_cons (by decide) items)
      exact ⟨join left lefts first.1 later.1,join right rights first.2 later.2⟩

theorem shownFields_plain : ∀ lefts rights : List (String × Json), SameFields lefts rights →
    OneLine (canonicalFields lefts) ∧ OneLine (canonicalFields rights)
  | [], rights, same => by
    cases rights with
    | nil => exact ⟨oneLine_of_all rfl,oneLine_of_all rfl⟩
    | cons right rights => exact same.elim
  | (key, left) :: lefts, rights, same => by
    cases rights with
    | nil => exact same.elim
    | cons entry rights =>
      obtain ⟨other,right⟩ := entry
      have first := shown_plain left right same.2.1
      have later := shownFields_plain lefts rights same.2.2
      have join (name : String) (value : Json) (rest : List (String × Json)) (plain : Plain value)
          (fields : OneLine (canonicalFields rest)) : OneLine (canonicalFields ((name,value) :: rest)) := by
        have start : OneLine (quoted name ++ ':' :: canonicalText value) :=
          oneLine_append (quoted_oneLine name) (oneLine_cons (by decide) plain)
        cases rest with
        | nil => exact start
        | cons head rest =>
          rw [show canonicalFields ((name,value) :: head :: rest) =
            (quoted name ++ ':' :: canonicalText value) ++ ',' :: canonicalFields (head :: rest) by
              simp [canonicalFields]]
          exact oneLine_append start (oneLine_cons (by decide) fields)
      exact ⟨join key left lefts first.1 later.1,join other right rights first.2 later.2⟩

end

theorem shown_oneLine {left right : Json} (same : SameShape left right) :
    OneLine (shown left).toList ∧ OneLine (shown right).toList := by
  unfold shown
  rw [String.toList_ofList,String.toList_ofList]
  exact shown_plain left right same

end Shown

section Rows

-- A line of the text for each of two views: what both start with, and the rest of each.
structure Row where
  start : String
  left : String
  right : String

-- What a line with text of the view starts with.
def starts : List String := [
  "# Investigation ","Question: ","Binary: sha256=","Tool: rsleigh ","Open: ","- [","  - Supporting: ",
  "  - Source: ","  - Next: ","  - Note: ","  - Contradicting evidence retained: ","- ","- r"
]

-- The lines without text of the view.
def fixed : List String := [
  "","## Status","## Unresolved","## Closed","## Observations","## Analyst inferences (provisional, not verified)",
  "## Evidence","## History","- none"
]

def Row.Fits (row : Row) : Prop :=
  row.start ∈ fixed ∧ row.left = "" ∧ row.right = "" ∨
    row.start ∈ starts ∧ OneLine row.left.toList ∧ OneLine row.right.toList

def write (rows : List Row) (side : Row → String) : String :=
  String.join (rows.map fun row => line row.start (side row))

-- Two texts are written from the same rows.
def Parallel (left right : String) : Prop :=
  ∃ rows : List Row, (∀ row ∈ rows, row.Fits) ∧ left = write rows Row.left ∧ right = write rows Row.right

theorem parallel_empty : Parallel "" "" :=
  ⟨[],by simp,rfl,rfl⟩

theorem parallel_append {left right left' right' : String} (one : Parallel left right) (two : Parallel left' right') :
    Parallel (left ++ left') (right ++ right') := by
  obtain ⟨rows,fits,rfl,rfl⟩ := one
  obtain ⟨rows',fits',rfl,rfl⟩ := two
  refine ⟨rows ++ rows',?_,?_,?_⟩
  · intro row member
    rcases List.mem_append.mp member with member | member
    · exact fits row member
    · exact fits' row member
  · simp [write,String.join_append]
  · simp [write,String.join_append]

theorem parallel_fixed (start : String) (member : start ∈ fixed) : Parallel (line start "") (line start "") :=
  ⟨[⟨start,"",""⟩],by simp [Row.Fits,member],by simp [write],by simp [write]⟩

theorem parallel_line (start : String) {left right : String} (member : start ∈ starts) (one : OneLine left.toList)
    (two : OneLine right.toList) : Parallel (line start left) (line start right) :=
  ⟨[⟨start,left,right⟩],by simp [Row.Fits,member,one,two],by simp [write],by simp [write]⟩

theorem parallel_join {lefts rights : List String} (each : List.Forall₂ Parallel lefts rights) :
    Parallel (String.join lefts) (String.join rights) := by
  induction each with
  | nil => exact parallel_empty
  | cons first _ ih =>
    rw [String.join_cons,String.join_cons]
    exact parallel_append first ih

theorem parallel_empty_iff {left right : String} (both : Parallel left right) : left = "" ↔ right = "" := by
  obtain ⟨rows,_,rfl,rfl⟩ := both
  cases rows with
  | nil => exact Iff.rfl
  | cons row rows =>
    have nonempty (side : Row → String) : write (row :: rows) side ≠ "" := by
      intro isEmpty
      have noChars := congrArg String.toList isEmpty
      simp [write,line] at noChars
    exact ⟨fun isEmpty => absurd isEmpty (nonempty _),fun isEmpty => absurd isEmpty (nonempty _)⟩

theorem parallel_noneIfEmpty {left right : String} (both : Parallel left right) :
    Parallel (noneIfEmpty left) (noneIfEmpty right) := by
  have same := parallel_empty_iff both
  unfold noneIfEmpty
  by_cases isEmpty : left = ""
  · rw [if_pos isEmpty,if_pos (same.mp isEmpty)]
    exact parallel_fixed "- none" (by decide)
  · rw [if_neg isEmpty,if_neg fun rightEmpty => isEmpty (same.mpr rightEmpty)]
    exact both

theorem parallel_part (name : String) {left right : String} (member : name ∈ fixed) (both : Parallel left right) :
    Parallel (part name left) (part name right) :=
  parallel_append (parallel_append (parallel_append (parallel_fixed _ (by decide)) (parallel_fixed _ member))
    (parallel_fixed _ (by decide))) both

-- The lines of a text, each without its line feed.
def lines (text : String) : List (List Char) :=
  let parts := text.toList.splitOn '\n'
  if parts.getLast? = some [] then parts.dropLast else parts

theorem splitOn_lines (written : List (List Char)) (each : ∀ one ∈ written, '\n' ∉ one) :
    (written.flatMap fun one => one ++ ['\n']).splitOn '\n' = written ++ [[]] := by
  induction written with
  | nil => rfl
  | cons one rest ih =>
    have first := each one List.mem_cons_self
    rw [List.flatMap_cons,List.append_assoc,List.singleton_append,List.splitOn_eq_splitOnP,
      List.splitOnP_append_cons_of_forall_mem (by
        intro c member
        by_contra same
        exact first (by simpa using (show c = '\n' by simpa using same) ▸ member)) _ (by simp),
      ← List.splitOn_eq_splitOnP,ih fun one member => each one (List.mem_cons_of_mem _ member)]
    rfl

theorem starts_oneLine : ∀ start ∈ starts ++ fixed, OneLine start.toList := by
  have all : ∀ start ∈ starts ++ fixed, (start.toList.all fun c => !endsLine c) = true := by decide +kernel
  exact fun start member => oneLine_of_all (all start member)

theorem row_oneLine {row : Row} (fits : row.Fits) :
    OneLine (row.start ++ row.left).toList ∧ OneLine (row.start ++ row.right).toList := by
  rw [String.toList_append,String.toList_append]
  rcases fits with ⟨member,isLeft,isRight⟩ | ⟨member,isLeft,isRight⟩
  · have start := starts_oneLine row.start (List.mem_append_right _ member)
    rw [isLeft,isRight]
    exact ⟨oneLine_append start (oneLine_of_all rfl),oneLine_append start (oneLine_of_all rfl)⟩
  · have start := starts_oneLine row.start (List.mem_append_left _ member)
    exact ⟨oneLine_append start isLeft,oneLine_append start isRight⟩

theorem lines_write {rows : List Row} {side : Row → String}
    (each : ∀ row ∈ rows, OneLine (row.start ++ side row).toList) :
    lines (write rows side) = rows.map fun row => (row.start ++ side row).toList := by
  have text : (write rows side).toList =
      (rows.map fun row => (row.start ++ side row).toList).flatMap fun one => one ++ ['\n'] := by
    rw [write,String.toList_join,List.flatMap_map,List.flatMap_map]
    simp [line]
  have split := splitOn_lines (rows.map fun row => (row.start ++ side row).toList) (by
    intro one member feed
    obtain ⟨row,isRow,rfl⟩ := List.mem_map.mp member
    exact absurd (each row isRow '\n' feed) (by decide))
  unfold lines
  rw [text,split]
  simp

end Rows

section Texts

def Inline (text : String) : Prop := OneLine text.toList

instance (text : String) : Decidable (Inline text) :=
  inferInstanceAs (Decidable (OneLine text.toList))

theorem inline_append {first second : String} : Inline (first ++ second) ↔ Inline first ∧ Inline second := by
  unfold Inline OneLine
  rw [String.toList_append]
  exact List.forall_mem_append

theorem inline_markdown (value : Json) : Inline (markdownText value) := markdownText_oneLine value

theorem inline_code (text : String) : Inline (markdownCode text) := markdownCode_oneLine text

theorem inline_optional (value : Json) : Inline (optionalText value) := optionalText_oneLine value

theorem inline_list (value : Json) : Inline (list value) := list_oneLine value

end Texts

-- Two views of the same shape that keep the states of the issues, and which query is for which issue.
structure Alike (view other : Json) : Prop where
  shape : SameShape view other
  states : List.Forall₂ (fun issue issue' => issue.get "state" = issue'.get "state")
    ((view.get "investigation").get "issues").items ((other.get "investigation").get "issues").items
  ids : List.Forall₂ (fun query query' => List.Forall₂ (fun issue issue' =>
      query.get "issue" = issue.get "id" ↔ query'.get "issue" = issue'.get "id")
        ((view.get "investigation").get "issues").items ((other.get "investigation").get "issues").items)
    (view.get "next_queries").items (other.get "next_queries").items

section Views

variable {left right : Json}

theorem parallel_items {lefts rights : List Json} {write : Json → String} (same : List.Forall₂ SameShape lefts rights)
    (each : ∀ left right, SameShape left right → Parallel (write left) (write right)) :
    Parallel (String.join (lefts.map write)) (String.join (rights.map write)) := by
  refine parallel_join ?_
  rw [List.forall₂_map_left_iff,List.forall₂_map_right_iff]
  exact same.imp fun left right => each left right

theorem filter_related {related kept : Json → Json → Prop} (wanted wanted' : Json → Prop) [DecidablePred wanted]
    [DecidablePred wanted'] {lefts rights : List Json} (keeps : ∀ left right, related left right → kept left right)
    (agree : ∀ left right, related left right → (wanted left ↔ wanted' right))
    (same : List.Forall₂ related lefts rights) :
    List.Forall₂ kept (lefts.filter fun left => wanted left) (rights.filter fun right => wanted' right) := by
  induction same with
  | nil => exact List.Forall₂.nil
  | @cons left right _ _ first _ ih =>
    have iff := agree left right first
    by_cases isLeft : wanted left
    · rw [List.filter_cons_of_pos (by simpa using isLeft),List.filter_cons_of_pos (by simpa using iff.mp isLeft)]
      exact List.Forall₂.cons (keeps left right first) ih
    · have isRight := fun same => isLeft (iff.mpr same)
      rw [List.filter_cons_of_neg (by simpa using isLeft),List.filter_cons_of_neg (by simpa using isRight)]
      exact ih

theorem heading_parallel (left right : Json) : Parallel (heading left) (heading right) := by
  have inline (doc : Json) : Inline (markdownText (doc.get "id") ++ " (revision " ++
      markdownText (doc.get "revision") ++ ")") ∧ Inline (markdownText ((doc.get "target").get "binary_sha256") ++
        " format=" ++ markdownText ((doc.get "target").get "format") ++ " arch=" ++
        markdownText ((doc.get "target").get "architecture") ++ " image_base=" ++
        markdownText ((doc.get "target").get "imagebase")) := by
    simp only [inline_append,inline_markdown,true_and,and_true]
    simp [Inline,OneLine,endsLine]
  have first := parallel_line "# Investigation " (by decide) (inline left).1 (inline right).1
  have question := parallel_line "Question: " (by decide) (inline_markdown (left.get "question"))
    (inline_markdown (right.get "question"))
  have binary := parallel_line "Binary: sha256=" (by decide) (inline left).2 (inline right).2
  have tool := parallel_line "Tool: rsleigh " (by decide)
    (inline_markdown ((left.get "created_by").get "version")) (inline_markdown ((right.get "created_by").get "version"))
  exact parallel_append (parallel_append (parallel_append (parallel_append first (parallel_fixed _ (by decide))) question)
    binary) tool

theorem status_parallel (same : SameShape left right) : Parallel (statusSection left) (statusSection right) := by
  have counts : Parallel
      (line "Open: " (shown (left.get "open") ++ " · Answered (evidence-checked): " ++ shown (left.get "answered") ++
        " · Withdrawn (not answers): " ++ shown (left.get "withdrawn") ++ " · Out of scope: " ++
        shown (left.get "out_of_scope") ++ " · Contradicted: " ++ shown (left.get "contradicted")))
      (line "Open: " (shown (right.get "open") ++ " · Answered (evidence-checked): " ++ shown (right.get "answered") ++
        " · Withdrawn (not answers): " ++ shown (right.get "withdrawn") ++ " · Out of scope: " ++
        shown (right.get "out_of_scope") ++ " · Contradicted: " ++ shown (right.get "contradicted"))) := by
    have each (key : String) : Inline (shown (left.get key)) ∧ Inline (shown (right.get key)) :=
      shown_oneLine (get_shape same key)
    refine parallel_line _ (by decide) ?_ ?_
    · show Inline _
      simp only [inline_append,each,true_and,and_true]
      simp [Inline,OneLine,endsLine]
    · show Inline _
      simp only [inline_append,each,true_and,and_true]
      simp [Inline,OneLine,endsLine]
  exact parallel_append (parallel_append (parallel_append (parallel_fixed _ (by decide)) (parallel_fixed _ (by decide)))
    (parallel_fixed _ (by decide))) counts

theorem parallel_optional {chosen : Bool} {start one two : String} (member : start ∈ starts) (first : Inline one)
    (second : Inline two) : Parallel (if chosen then line start one else "") (if chosen then line start two else "") := by
  cases chosen with
  | true => exact parallel_line _ member first second
  | false => exact parallel_empty

theorem query_parallel (same : SameShape left right) : Parallel (queryLines left) (queryLines right) := by
  have next (query : Json) : Inline (markdownCode ((query.get "command").asText.getD "") ++ " — " ++
      markdownText (query.get "reason")) := by
    simp only [inline_append,inline_markdown,inline_code,true_and,and_true]
    simp [Inline,OneLine,endsLine]
  unfold queryLines
  rw [isText_shape (get_shape same "platform_note")]
  exact parallel_append (parallel_line _ (by decide) (next left) (next right))
    (parallel_optional (by decide) (inline_markdown _) (inline_markdown _))

theorem openIssue_parallel {queries queries' : List Json} (same : SameShape left right)
    (asked : List.Forall₂ (fun query query' => SameShape query query' ∧
      (query.get "issue" = left.get "id" ↔ query'.get "issue" = right.get "id")) queries queries') :
    Parallel (openIssue queries left) (openIssue queries' right) := by
  have first (issue : Json) : Inline (markdownText (issue.get "id") ++ "] " ++ markdownText (issue.get "text")) ∧
      Inline (list (issue.get "supporting") ++ "; contradicting: " ++ list (issue.get "contradicting")) := by
    simp only [inline_append,inline_markdown,inline_list,true_and,and_true]
    simp [Inline,OneLine,endsLine]
  have chosen := filter_related (fun query => query.get "issue" = left.get "id")
    (fun query => query.get "issue" = right.get "id") (fun _ _ pair => pair.1) (fun _ _ pair => pair.2) asked
  unfold openIssue
  rw [isText_shape (get_shape same "source")]
  exact parallel_append (parallel_append (parallel_append (parallel_line _ (by decide) (first left).1 (first right).1)
    (parallel_line _ (by decide) (first left).2 (first right).2))
    (parallel_optional (by decide) (inline_markdown _) (inline_markdown _)))
    (parallel_items chosen fun _ _ => query_parallel)

theorem closedIssue_parallel (same : SameShape left right) : Parallel (closedIssue left) (closedIssue right) := by
  have first (issue : Json) : Inline (markdownText (issue.get "id") ++ "] " ++ markdownText (issue.get "text") ++
      " — " ++ markdownText (issue.get "state") ++ ": " ++ optionalText ((issue.get "resolution").get "note") ++
      " (evidence: " ++ list ((issue.get "resolution").get "evidence") ++ "; " ++
      markdownText ((issue.get "resolution").get "validation") ++ ")") := by
    simp only [inline_append,inline_markdown,inline_list,inline_optional,true_and,and_true]
    simp [Inline,OneLine,endsLine]
  have second : Parallel
      (if (ids (left.get "contradicting")).isEmpty then ""
        else line "  - Contradicting evidence retained: " (list (left.get "contradicting")))
      (if (ids (right.get "contradicting")).isEmpty then ""
        else line "  - Contradicting evidence retained: " (list (right.get "contradicting"))) := by
    rw [ids_shape (get_shape same "contradicting")]
    split
    · exact parallel_empty
    · exact parallel_line _ (by decide) (inline_list _) (inline_list _)
  exact parallel_append (parallel_line _ (by decide) (first left) (first right)) second

theorem entry_parallel (left right : Json) : Parallel (entryLine left) (entryLine right) := by
  have inline (entry : Json) : Inline (markdownText (entry.get "id") ++ "] " ++ markdownText (entry.get "text") ++
      " (evidence: " ++ list (entry.get "evidence") ++ ")") := by
    simp only [inline_append,inline_markdown,inline_list,true_and,and_true]
    simp [Inline,OneLine,endsLine]
  exact parallel_line _ (by decide) (inline left) (inline right)

theorem record_parallel (same : SameShape left right) : Parallel (recordLine left) (recordLine right) := by
  have available (record : Json) : Inline (markdownText (record.get "id") ++ " " ++ markdownText (record.get "kind") ++
      " " ++ markdownText (record.get "status") ++ " function=" ++ markdownText (record.get "function_address") ++
      " complete=" ++ markdownText (record.get "complete")) ∧
      Inline (markdownText (record.get "id") ++ " (unavailable)") := by
    simp only [inline_append,inline_markdown,true_and,and_true]
    simp [Inline,OneLine,endsLine]
  have flag := isTrue_shape (get_shape same "available")
  unfold recordLine
  by_cases isLeft : left.get "available" = .bool true
  · rw [if_pos isLeft,if_pos (flag.mp isLeft)]
    exact parallel_line _ (by decide) (available left).1 (available right).1
  · rw [if_neg isLeft,if_neg fun isRight => isLeft (flag.mpr isRight)]
    exact parallel_line _ (by decide) (available left).2 (available right).2

theorem history_parallel (left right : Json) : Parallel (historyLine left) (historyLine right) := by
  have inline (entry : Json) : Inline (markdownText (entry.get "revision") ++ " " ++ markdownText (entry.get "action") ++
      " " ++ optionalText (entry.get "subject")) := by
    simp only [inline_append,inline_markdown,inline_optional,true_and,and_true]
    simp [Inline,OneLine,endsLine]
  exact parallel_line _ (by decide) (inline left) (inline right)

end Views

section Whole

variable {view other : Json}

theorem issues_related (alike : Alike view other) : List.Forall₂ (fun issue issue' => SameShape issue issue' ∧
    (isOpen issue = isOpen issue') ∧ List.Forall₂ (fun query query' => SameShape query query' ∧
      (query.get "issue" = issue.get "id" ↔ query'.get "issue" = issue'.get "id"))
        (view.get "next_queries").items (other.get "next_queries").items)
    ((view.get "investigation").get "issues").items ((other.get "investigation").get "issues").items := by
  have shapes := items_shape (get_shape (get_shape alike.shape "investigation") "issues")
  have queries := items_shape (get_shape alike.shape "next_queries")
  rw [List.forall₂_iff_get]
  refine ⟨shapes.length_eq,?_⟩
  intro i left right
  refine ⟨(List.forall₂_iff_get.mp shapes).2 i left right,?_,?_⟩
  · have state := (List.forall₂_iff_get.mp alike.states).2 i left right
    unfold isOpen
    rw [state]
  · rw [List.forall₂_iff_get]
    refine ⟨queries.length_eq,?_⟩
    intro j left' right'
    refine ⟨(List.forall₂_iff_get.mp queries).2 j left' right',?_⟩
    exact (List.forall₂_iff_get.mp ((List.forall₂_iff_get.mp alike.ids).2 j left' right')).2 i left right

theorem open_parallel (alike : Alike view other) : Parallel
    (String.join ((((view.get "investigation").get "issues").items.filter isOpen).map
      (openIssue (view.get "next_queries").items)))
    (String.join ((((other.get "investigation").get "issues").items.filter isOpen).map
      (openIssue (other.get "next_queries").items))) := by
  have chosen := filter_related (fun issue => isOpen issue = true) (fun issue => isOpen issue = true)
    (fun _ _ related => And.intro related.1 related.2.2) (fun _ _ related => by rw [related.2.1]) (issues_related alike)
  simp only [Bool.decide_eq_true] at chosen
  refine parallel_join ?_
  rw [List.forall₂_map_left_iff,List.forall₂_map_right_iff]
  exact chosen.imp fun _ _ related => openIssue_parallel related.1 related.2

theorem closed_parallel (alike : Alike view other) : Parallel
    (String.join ((((view.get "investigation").get "issues").items.filter fun issue => !isOpen issue).map closedIssue))
    (String.join ((((other.get "investigation").get "issues").items.filter fun issue => !isOpen issue).map
      closedIssue)) := by
  have chosen := filter_related (fun issue => (!isOpen issue) = true) (fun issue => (!isOpen issue) = true)
    (fun _ _ related => related.1)
    (fun _ _ related => by rw [related.2.1]) (issues_related alike)
  simp only [Bool.decide_eq_true] at chosen
  exact parallel_items chosen fun _ _ => closedIssue_parallel

theorem handoff_parallel (alike : Alike view other) : Parallel (handoff view) (handoff other) := by
  have doc := get_shape alike.shape "investigation"
  have observations := parallel_items (items_shape (get_shape doc "observations")) fun left right _ =>
    entry_parallel left right
  have inferences := parallel_items (items_shape (get_shape doc "inferences")) fun left right _ =>
    entry_parallel left right
  have evidence := parallel_items (items_shape (get_shape alike.shape "evidence")) fun _ _ => record_parallel
  have history := parallel_items (items_shape (get_shape doc "history")) fun left right _ => history_parallel left right
  have start := parallel_append (heading_parallel (view.get "investigation") (other.get "investigation"))
    (status_parallel (get_shape alike.shape "summary"))
  have unresolved := parallel_append start
    (parallel_part "## Unresolved" (by decide) (parallel_noneIfEmpty (open_parallel alike)))
  have closed := parallel_append unresolved
    (parallel_part "## Closed" (by decide) (parallel_noneIfEmpty (closed_parallel alike)))
  have observed := parallel_append closed
    (parallel_part "## Observations" (by decide) (parallel_noneIfEmpty observations))
  have inferred := parallel_append observed
    (parallel_part "## Analyst inferences (provisional, not verified)" (by decide)
      (parallel_noneIfEmpty inferences))
  have recorded := parallel_append inferred
    (parallel_part "## Evidence" (by decide) (parallel_noneIfEmpty evidence))
  exact parallel_append recorded (parallel_part "## History" (by decide) history)

end Whole

section Code

theorem longest_bounds (flat : List Char) : ∀ run ∈ CodeSpan.runs backtick flat, run < longest flat + 1 := by
  intro run member
  unfold longest
  cases isMax : (CodeSpan.runs backtick flat).max? with
  | none => exact absurd (List.max?_eq_none_iff.mp isMax) (CodeSpan.runs_ne_nil _ _)
  | some most =>
    have bound := (List.max?_eq_some_iff.mp isMax).2 run member
    simp only [Option.getD_some]
    omega

theorem codeContent_runs (text : String) : ∀ run ∈ CodeSpan.runs backtick (codeContent text),
    run < longest (flatten text) + 1 := by
  intro run member
  unfold codeContent at member
  simp only [] at member
  split at member
  · rw [List.append_assoc,List.singleton_append,CodeSpan.runs_pad (by decide)] at member
    rcases List.mem_append.mp member with member | member
    · rcases List.mem_cons.mp member with rfl | member
      · omega
      · exact longest_bounds _ run member
    · rw [List.mem_singleton.mp member]
      omega
  · rw [List.nil_append,List.append_nil] at member
    exact longest_bounds _ run member

theorem codeContent_ends (text : String) : (codeContent text).head? ≠ some backtick ∧
    (codeContent text).getLast? ≠ some backtick := by
  unfold codeContent
  simp only []
  split
  · rw [List.append_assoc,List.singleton_append,List.head?_cons]
    refine ⟨by decide,?_⟩
    rw [← List.cons_append,List.getLast?_append]
    simp [backtick]
  · rename_i plain
    rw [List.nil_append,List.append_nil]
    exact ⟨fun isHead => plain (Or.inl isHead),fun isLast => plain (Or.inr isLast)⟩

end Code

-- Text of a view forges no line of the handoff, and no code span ends before its own fence.
theorem handoff_unforged {view other : Json} (alike : Alike view other) :
    (∃ rows : List Row, (∀ row ∈ rows, row.Fits) ∧
      lines (handoff view) = rows.map (fun row => (row.start ++ row.left).toList) ∧
      lines (handoff other) = rows.map (fun row => (row.start ++ row.right).toList)) ∧
    ∀ text : String, (markdownCode text).toList = codeFence text ++ codeContent text ++ codeFence text ∧
      (∀ run ∈ CodeSpan.runs backtick (codeContent text), run ≠ (codeFence text).length) ∧
      (codeContent text).head? ≠ some backtick ∧
      ∀ after : List Char, after.head? ≠ some backtick →
        CodeSpan.closing backtick (codeFence text).length 0 0 (codeContent text ++ codeFence text ++ after) =
          some (codeContent text).length := by
  refine ⟨?_,?_⟩
  · obtain ⟨rows,fits,isLeft,isRight⟩ := handoff_parallel alike
    refine ⟨rows,fits,?_,?_⟩
    · rw [isLeft]
      exact lines_write fun row member => (row_oneLine (fits row member)).1
    · rw [isRight]
      exact lines_write fun row member => (row_oneLine (fits row member)).2
  · intro text
    have fenceLength : (codeFence text).length = longest (flatten text) + 1 := List.length_replicate
    have shorter := codeContent_runs text
    refine ⟨by rw [markdownCode,String.toList_ofList],?_,(codeContent_ends text).1,?_⟩
    · intro run member same
      have short := shorter run member
      omega
    · intro after follows
      have closed := CodeSpan.closing_content (longest (flatten text) + 1) follows 0 0 (Nat.le_refl _)
        (fun _ => rfl) (codeContent_ends text).2 (by
          obtain ⟨first,later,isRuns⟩ := List.exists_cons_of_ne_nil
            (CodeSpan.runs_ne_nil backtick (codeContent text))
          rw [isRuns] at shorter ⊢
          simpa [List.modifyHead] using shorter)
      rw [fenceLength,List.append_assoc]
      simpa [codeFence] using closed

def askedView (id text : String) : Json := .object [
  ("investigation",.object [("issues",.array [
    .object [("id",.text id),("state",.text "open"),("text",.text text)]
  ])]),
  ("next_queries",.array [.object [("command",.text text),("issue",.text id),("reason",.text text)]])
]

theorem handoff_unforged_asked : ∃ rows : List Row, (∀ row ∈ rows, row.Fits) ∧
    lines (handoff (askedView "q-1" "x")) = rows.map (fun row => (row.start ++ row.left).toList) ∧
    lines (handoff (askedView "q-2" "x\n## Closed")) = rows.map (fun row => (row.start ++ row.right).toList) := by
  refine (handoff_unforged ⟨?_,?_,?_⟩).1
  · simp [askedView,SameShape,SameItems,SameFields]
  · exact List.Forall₂.cons (by decide +kernel) List.Forall₂.nil
  · exact List.Forall₂.cons (List.Forall₂.cons (by decide +kernel) List.Forall₂.nil) List.Forall₂.nil

end Rsleigh.Investigation.Handoff

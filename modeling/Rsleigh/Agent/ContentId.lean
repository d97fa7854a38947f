import Mathlib
import Rsleigh.Agent.Evidence

namespace Rsleigh.Agent

section Text

-- A number is written with these, and nothing that follows a value starts with one.
def isNumeral (c : Char) : Bool := c.isDigit || c ∈ ['-','+','.','e','E']

mutual

-- Numbers with a fraction are written so that they are not taken for whole ones.
def Printable : Json → Prop
  | .real digits => digits.toList.all isNumeral = true ∧ (digits.toList.any fun c => c ∈ ['.','e']) = true
  | .array items => PrintableItems items
  | .object fields => PrintableFields fields
  | _ => True

def PrintableItems : List Json → Prop
  | [] => True
  | item :: rest => Printable item ∧ PrintableItems rest

def PrintableFields : List (String × Json) → Prop
  | [] => True
  | (_, value) :: rest => Printable value ∧ PrintableFields rest

end

theorem toList_toString (value : Int) : (toString value).toList =
    if value < 0 then '-' :: Nat.toDigits 10 value.natAbs else Nat.toDigits 10 value.natAbs := by
  cases value with
  | ofNat n =>
    have nonnegative : ¬ (Int.ofNat n < 0) := by simp
    rw [if_neg nonnegative]
    exact Nat.toList_repr
  | negSucc n =>
    have negative : Int.negSucc n < 0 := Int.negSucc_lt_zero n
    rw [if_pos negative]
    have text : toString (Int.negSucc n) = "-" ++ (n + 1).repr := rfl
    rw [text,String.toList_append,Nat.toList_repr]
    rfl

theorem toString_injective {value other : Int} (same : (toString value).toList = (toString other).toList) :
    value = other := by
  have digits {n : Nat} : ∀ c ∈ Nat.toDigits 10 n, c.isDigit = true :=
    fun c inside => Nat.isDigit_of_mem_toDigits (by decide) (by decide) inside
  have noSign {n m : Nat} : '-' :: Nat.toDigits 10 n ≠ Nat.toDigits 10 m := by
    intro equal
    have sign : '-' ∈ Nat.toDigits 10 m := by
      rw [← equal]
      simp
    exact absurd (digits _ sign) (by decide)
  have magnitude {n m : Nat} (equal : Nat.toDigits 10 n = Nat.toDigits 10 m) : n = m := by
    rw [← Nat.ofDigitChars_ten_toDigits (n := n),equal,Nat.ofDigitChars_ten_toDigits]
  rw [toList_toString,toList_toString] at same
  by_cases negative : value < 0 <;> by_cases other_ : other < 0 <;> simp only [negative,other_,if_true,if_false] at same
  · have size := magnitude (List.cons_injective same)
    omega
  · exact absurd same noSign
  · exact absurd same.symm noSign
  · have size := magnitude same
    omega

theorem numeral_toString (value : Int) : ∀ c ∈ (toString value).toList, isNumeral c = true ∧ c ∉ ['.','e'] := by
  have digit (c : Char) (isDigit : c.isDigit = true) : isNumeral c = true ∧ c ∉ ['.','e'] := by
    refine ⟨by simp [isNumeral,isDigit],fun inside => ?_⟩
    simp only [List.mem_cons,List.not_mem_nil,or_false] at inside
    rcases inside with rfl | rfl <;> exact absurd isDigit (by decide)
  intro c inside
  rw [toList_toString] at inside
  split at inside
  · rcases List.mem_cons.mp inside with rfl | inside
    · decide
    · exact digit c (Nat.isDigit_of_mem_toDigits (by decide) (by decide) inside)
  · exact digit c (Nat.isDigit_of_mem_toDigits (by decide) (by decide) inside)

-- A control character, a quotation mark or a backslash is written with a backslash.
def escaped (c : Char) : Bool := c = '"' || c = '\\' || decide (c.toNat < 32)

theorem escapeChar_plain (plain : escaped c = false) : escapeChar c = [c] ∧ c ≠ '"' ∧ c ≠ '\\' := by
  simp only [escaped,Bool.or_eq_false_iff,decide_eq_false_iff_not] at plain
  obtain ⟨⟨noQuote,noSlash⟩,printable⟩ := plain
  have apart (d : Char) (control : d.toNat < 32) : c ≠ d := by
    rintro rfl
    exact printable control
  have back : ¬ c.toNat = 8 := by omega
  have feed : ¬ c.toNat = 12 := by omega
  have line := apart '\n' (by decide)
  have carriage := apart '\r' (by decide)
  have tab := apart '\t' (by decide)
  exact ⟨by simp [escapeChar,noQuote,noSlash,printable,back,feed,line,carriage,tab],noQuote,noSlash⟩

-- The characters with an escape of their own; the others are written by their code.
def shortEscapes : List (Char × Char) :=
  [('"','"'),('\\','\\'),('n','\n'),('r','\r'),('t','\t'),('b',Char.ofNat 8),('f',Char.ofNat 12)]

theorem escapeChar_special (special : escaped c = true) :
    (∃ x, x ≠ 'u' ∧ (x,c) ∈ shortEscapes ∧ escapeChar c = ['\\',x]) ∨
      c.toNat < 32 ∧
        escapeChar c = ['\\','u','0','0',Nat.digitChar (c.toNat / 16),Nat.digitChar (c.toNat % 16)] := by
  have named {n : Nat} (code : c.toNat = n) : c = Char.ofNat n := by rw [← code,Char.ofNat_toNat]
  simp only [escaped,Bool.or_eq_true,decide_eq_true_eq] at special
  unfold escapeChar
  split_ifs with quote slash line carriage tab back feed control
  · exact .inl ⟨'"',by decide,by simp [shortEscapes,quote],rfl⟩
  · exact .inl ⟨'\\',by decide,by simp [shortEscapes,slash],rfl⟩
  · exact .inl ⟨'n',by decide,by simp [shortEscapes,line],rfl⟩
  · exact .inl ⟨'r',by decide,by simp [shortEscapes,carriage],rfl⟩
  · exact .inl ⟨'t',by decide,by simp [shortEscapes,tab],rfl⟩
  · exact .inl ⟨'b',by decide,by simp [shortEscapes,named back],rfl⟩
  · exact .inl ⟨'f',by decide,by simp [shortEscapes,named feed],rfl⟩
  · exact .inr ⟨control,rfl⟩
  · simp [quote,slash,control] at special

theorem shortEscapes_unique : ∀ entry ∈ shortEscapes, ∀ entry' ∈ shortEscapes,
    entry.1 = entry'.1 → entry.2 = entry'.2 := by
  decide

theorem digitChar_unique : ∀ n < 16, ∀ m < 16, Nat.digitChar n = Nat.digitChar m → n = m := by
  decide

theorem escapeChar_backslash (special : escaped c = true) : ∃ tail, escapeChar c = '\\' :: tail := by
  rcases escapeChar_special special with ⟨x,_,_,shape⟩ | ⟨_,shape⟩
  · exact ⟨_,shape⟩
  · exact ⟨_,shape⟩

theorem escapeChar_special_unique (special : escaped c = true) (special' : escaped d = true)
    (same : escapeChar c ++ rest = escapeChar d ++ rest') : c = d ∧ rest = rest' := by
  rcases escapeChar_special special with ⟨x,noCode,entry,shape⟩ | ⟨small,shape⟩ <;>
    rcases escapeChar_special special' with ⟨y,noCode',entry',shape'⟩ | ⟨small',shape'⟩ <;>
    rw [shape,shape'] at same <;> simp only [List.cons_append,List.cons.injEq,true_and,List.nil_append] at same
  · exact ⟨shortEscapes_unique _ entry _ entry' same.1,same.2⟩
  · exact absurd same.1 noCode
  · exact absurd same.1.symm noCode'
  · obtain ⟨high,lows,rests⟩ := same
    have highs := digitChar_unique _ (by omega) _ (by omega) high
    have low := digitChar_unique _ (by omega) _ (by omega) lows
    exact ⟨Char.toNat_inj.mp (by omega),rests⟩

theorem escapeChar_unique (same : escapeChar c ++ rest = escapeChar d ++ rest') : c = d ∧ rest = rest' := by
  cases special : escaped c with
  | true =>
    cases special' : escaped d with
    | true => exact escapeChar_special_unique special special' same
    | false =>
      obtain ⟨tail,shape⟩ := escapeChar_backslash special
      obtain ⟨plain,_,noSlash⟩ := escapeChar_plain special'
      rw [shape,plain] at same
      simp only [List.cons_append,List.cons.injEq] at same
      exact absurd same.1.symm noSlash
  | false =>
    obtain ⟨plain,_,noSlash⟩ := escapeChar_plain special
    cases special' : escaped d with
    | true =>
      obtain ⟨tail,shape⟩ := escapeChar_backslash special'
      rw [plain,shape] at same
      simp only [List.cons_append,List.cons.injEq] at same
      exact absurd same.1 noSlash
    | false =>
      rw [plain,(escapeChar_plain special').1] at same
      simpa using same

theorem escapeChar_head (c : Char) (rest : List Char) :
    ∃ first tail, escapeChar c ++ rest = first :: tail ∧ first ≠ '"' := by
  cases special : escaped c with
  | true =>
    obtain ⟨tail,shape⟩ := escapeChar_backslash special
    rw [shape]
    exact ⟨_,_,rfl,by decide⟩
  | false =>
    obtain ⟨plain,noQuote,_⟩ := escapeChar_plain special
    rw [plain]
    exact ⟨_,_,rfl,noQuote⟩

theorem escapes_unique {text text' : List Char}
    (same : text.flatMap escapeChar ++ '"' :: rest = text'.flatMap escapeChar ++ '"' :: rest') :
    text = text' ∧ rest = rest' := by
  induction text generalizing text' with
  | nil =>
    cases text' with
    | nil => simpa using same
    | cons c text' =>
      rw [List.flatMap_cons,List.append_assoc] at same
      obtain ⟨first,tail,shape,noQuote⟩ := escapeChar_head c (text'.flatMap escapeChar ++ '"' :: rest')
      rw [shape] at same
      simp only [List.flatMap_nil,List.nil_append,List.cons.injEq] at same
      exact absurd same.1.symm noQuote
  | cons c text ih =>
    cases text' with
    | nil =>
      rw [List.flatMap_cons,List.append_assoc] at same
      obtain ⟨first,tail,shape,noQuote⟩ := escapeChar_head c (text.flatMap escapeChar ++ '"' :: rest)
      rw [shape] at same
      simp only [List.flatMap_nil,List.nil_append,List.cons.injEq] at same
      exact absurd same.1 noQuote
    | cons d text' =>
      rw [List.flatMap_cons,List.append_assoc,List.flatMap_cons,List.append_assoc] at same
      obtain ⟨rfl,tails⟩ := escapeChar_unique same
      obtain ⟨rfl,rfl⟩ := ih tails
      exact ⟨rfl,rfl⟩

theorem quoted_unique {text text' : String} (same : quoted text ++ rest = quoted text' ++ rest') :
    text = text' ∧ rest = rest' := by
  simp only [quoted,List.cons_append,List.append_assoc,List.cons.injEq,true_and] at same
  obtain ⟨characters,rfl⟩ := escapes_unique same
  exact ⟨String.toList_injective characters,rfl⟩

-- What may follow a value.
def Delimited (rest : List Char) : Prop := ∀ c ∈ rest.head?, isNumeral c = false

theorem numeral_unique {text text' : List Char} (numeral : ∀ c ∈ text, isNumeral c = true)
    (numeral' : ∀ c ∈ text', isNumeral c = true) (delimited : Delimited rest) (delimited' : Delimited rest')
    (same : text ++ rest = text' ++ rest') : text = text' ∧ rest = rest' := by
  have whole {text rest : List Char} (numeral : ∀ c ∈ text, isNumeral c = true) (delimited : Delimited rest) :
      (text ++ rest).takeWhile isNumeral = text := by
    rw [List.takeWhile_append_of_pos numeral]
    cases rest with
    | nil => simp
    | cons c rest =>
      have stop := delimited c rfl
      simp [stop]
  have texts : text = text' := by
    rw [← whole numeral delimited,same,whole numeral' delimited']
  subst texts
  exact ⟨rfl,List.append_cancel_left same⟩

-- What kind of value a text starts.
inductive Lead where
  | word (c : Char)
  | numeral
  | text
  | array
  | object
  deriving DecidableEq

def lead : Json → Lead
  | .null => .word 'n'
  | .bool true => .word 't'
  | .bool false => .word 'f'
  | .number _ | .real _ => .numeral
  | .text _ => .text
  | .array _ => .array
  | .object _ => .object

def leadOf (c : Char) : Lead :=
  if isNumeral c then .numeral
  else if c = '"' then .text
  else if c = '[' then .array
  else if c = '{' then .object
  else .word c

theorem canonicalText_head {value : Json} (printable : Printable value) :
    ∃ first tail, canonicalText value = first :: tail ∧ leadOf first = lead value := by
  cases value with
  | null => exact ⟨_,_,rfl,by decide⟩
  | bool value => cases value <;> exact ⟨_,_,rfl,by decide⟩
  | number value =>
    have numeral := numeral_toString value
    have text : canonicalText (.number value) = (toString value).toList := rfl
    have nonempty : (toString value).toList ≠ [] := by
      rw [toList_toString]
      split
      · simp
      · exact Nat.toDigits_ne_nil
    obtain ⟨first,tail,shape⟩ := List.exists_cons_of_ne_nil nonempty
    rw [shape] at numeral
    exact ⟨first,tail,text.trans shape,by simp [leadOf,lead,(numeral first (by simp)).1]⟩
  | real digits =>
    obtain ⟨numeral,fraction⟩ := printable
    have text : canonicalText (.real digits) = digits.toList := rfl
    have nonempty : digits.toList ≠ [] := by
      intro none
      rw [none] at fraction
      cases fraction
    obtain ⟨first,tail,shape⟩ := List.exists_cons_of_ne_nil nonempty
    rw [shape,List.all_cons,Bool.and_eq_true] at numeral
    exact ⟨first,tail,text.trans shape,by simp [leadOf,lead,numeral.1]⟩
  | text value => exact ⟨_,_,rfl,rfl⟩
  | array items => exact ⟨_,_,rfl,rfl⟩
  | object fields => exact ⟨_,_,rfl,rfl⟩

theorem lead_unique {value other : Json} (printable : Printable value) (printable' : Printable other)
    (same : canonicalText value ++ rest = canonicalText other ++ rest') : lead value = lead other := by
  obtain ⟨first,tail,shape,leads⟩ := canonicalText_head printable
  obtain ⟨first',tail',shape',leads'⟩ := canonicalText_head printable'
  rw [shape,shape'] at same
  simp only [List.cons_append,List.cons.injEq] at same
  rw [← leads,← leads',same.1]

theorem canonicalText_ne_close {value : Json} (printable : Printable value) (c : Char) (close : c ∈ [']','}'])
    (rest rest' : List Char) : canonicalText value ++ rest ≠ c :: rest' := by
  obtain ⟨first,tail,shape,leads⟩ := canonicalText_head printable
  intro same
  rw [shape] at same
  simp only [List.cons_append,List.cons.injEq] at same
  rw [same.1] at leads
  simp only [List.mem_cons,List.not_mem_nil,or_false] at close
  rcases close with rfl | rfl
  · have word : leadOf ']' = .word ']' := by decide
    rw [word] at leads
    cases value with
    | bool value => cases value <;> exact absurd leads (by decide)
    | _ => exact absurd leads (by simp [lead])
  · have word : leadOf '}' = .word '}' := by decide
    rw [word] at leads
    cases value with
    | bool value => cases value <;> exact absurd leads (by decide)
    | _ => exact absurd leads (by simp [lead])

theorem delimited_cons (c : Char) (rest : List Char) : Delimited (c :: rest) ↔ isNumeral c = false := by
  simp [Delimited]

-- The text of a number ends where its characters do.
theorem number_unique {value other : Json} (printable : Printable value) (printable' : Printable other)
    (numeral : lead value = .numeral) (delimited : Delimited rest) (delimited' : Delimited rest')
    (same : canonicalText value ++ rest = canonicalText other ++ rest') : value = other ∧ rest = rest' := by
  have numeral' : lead other = .numeral := (lead_unique printable printable' same).symm.trans numeral
  have characters {value : Json} (printable : Printable value) (numeral : lead value = .numeral) :
      ∀ c ∈ canonicalText value, isNumeral c = true := by
    cases value with
    | number value => exact fun c inside => (numeral_toString value c inside).1
    | real digits => exact List.all_eq_true.mp printable.1
    | bool value => cases value <;> cases numeral
    | _ => cases numeral
  obtain ⟨texts,rests⟩ :=
    numeral_unique (characters printable numeral) (characters printable' numeral') delimited delimited' same
  refine ⟨?_,rests⟩
  have mixed {value : Int} {digits : String} (printable : Printable (.real digits)) :
      (toString value).toList ≠ digits.toList := by
    intro equal
    obtain ⟨c,inside,fraction⟩ := List.any_eq_true.mp printable.2
    rw [← equal] at inside
    exact (numeral_toString value c inside).2 (by simpa using fraction)
  cases value with
  | number value =>
    cases other with
    | number other => rw [toString_injective texts]
    | real digits => exact absurd texts (mixed printable')
    | bool value => cases value <;> cases numeral'
    | _ => cases numeral'
  | real digits =>
    cases other with
    | number other => exact absurd texts.symm (mixed printable)
    | real digits' => rw [String.toList_injective texts]
    | bool value => cases value <;> cases numeral'
    | _ => cases numeral'
  | bool value => cases value <;> cases numeral
  | _ => cases numeral

theorem canonicalItems_cons (item next : Json) (items : List Json) :
    canonicalItems (item :: next :: items) = canonicalText item ++ ',' :: canonicalItems (next :: items) := by
  rw [canonicalItems]
  simp

theorem canonicalFields_cons (key : String) (value : Json) (next : String × Json) (fields : List (String × Json)) :
    canonicalFields ((key,value) :: next :: fields) =
      quoted key ++ ':' :: canonicalText value ++ ',' :: canonicalFields (next :: fields) := by
  rw [canonicalFields]
  simp

mutual

-- A value is determined by its text, and so is where the text ends.
theorem canonicalText_unique : ∀ (value other : Json) (rest rest' : List Char), Printable value → Printable other →
    Delimited rest → Delimited rest' → canonicalText value ++ rest = canonicalText other ++ rest' →
      value = other ∧ rest = rest'
  | .array items, other, rest, rest', printable, printable', _, _, same => by
    have leads := lead_unique printable printable' same
    cases other with
    | array items' =>
      simp only [canonicalText,List.cons_append,List.append_assoc,List.cons.injEq,true_and] at same
      obtain ⟨rfl,rests⟩ := canonicalItems_unique items items' _ _ printable printable' same
      exact ⟨rfl,rests⟩
    | bool value => cases value <;> cases leads
    | _ => cases leads
  | .object fields, other, rest, rest', printable, printable', _, _, same => by
    have leads := lead_unique printable printable' same
    cases other with
    | object fields' =>
      simp only [canonicalText,List.cons_append,List.append_assoc,List.cons.injEq,true_and] at same
      obtain ⟨rfl,rests⟩ := canonicalFields_unique fields fields' _ _ printable printable' same
      exact ⟨rfl,rests⟩
    | bool value => cases value <;> cases leads
    | _ => cases leads
  | .text value, other, rest, rest', printable, printable', _, _, same => by
    have leads := lead_unique printable printable' same
    cases other with
    | text other =>
      obtain ⟨rfl,rests⟩ := quoted_unique same
      exact ⟨rfl,rests⟩
    | bool value => cases value <;> cases leads
    | _ => cases leads
  | .number _, _, _, _, printable, printable', delimited, delimited', same =>
    number_unique printable printable' rfl delimited delimited' same
  | .real _, _, _, _, printable, printable', delimited, delimited', same =>
    number_unique printable printable' rfl delimited delimited' same
  | .null, other, rest, rest', printable, printable', _, _, same => by
    have leads := lead_unique printable printable' same
    cases other with
    | null => exact ⟨rfl,List.append_cancel_left same⟩
    | bool value => cases value <;> cases leads
    | _ => cases leads
  | .bool value, other, rest, rest', printable, printable', _, _, same => by
    have leads := lead_unique printable printable' same
    cases other with
    | bool other =>
      have equal : value = other := by cases value <;> cases other <;> first | rfl | cases leads
      rw [equal] at same ⊢
      exact ⟨rfl,List.append_cancel_left same⟩
    | _ => cases value <;> cases leads

theorem canonicalItems_unique : ∀ (items others : List Json) (rest rest' : List Char), PrintableItems items →
    PrintableItems others → canonicalItems items ++ ']' :: rest = canonicalItems others ++ ']' :: rest' →
      items = others ∧ rest = rest'
  | [], [], rest, rest', _, _, same => by
    simpa [canonicalItems] using same
  | [], [other], rest, rest', _, printable', same =>
    absurd same.symm (canonicalText_ne_close printable'.1 ']' (by simp) _ _)
  | [], other :: next :: others, rest, rest', _, printable', same => by
    simp only [canonicalItems,List.append_assoc] at same
    exact absurd same.symm (canonicalText_ne_close printable'.1 ']' (by simp) _ _)
  | [item], [], rest, rest', printable, _, same =>
    absurd same (canonicalText_ne_close printable.1 ']' (by simp) _ _)
  | item :: next :: items, [], rest, rest', printable, _, same => by
    simp only [canonicalItems,List.append_assoc] at same
    exact absurd same (canonicalText_ne_close printable.1 ']' (by simp) _ _)
  | [item], [other], rest, rest', printable, printable', same => by
    obtain ⟨rfl,rests⟩ := canonicalText_unique item other _ _ printable.1 printable'.1
      ((delimited_cons ']' _).mpr (by decide)) ((delimited_cons ']' _).mpr (by decide)) same
    exact ⟨rfl,by simpa using rests⟩
  | [item], other :: next :: others, rest, rest', printable, printable', same => by
    simp only [canonicalItems,List.append_assoc,List.cons_append] at same
    obtain ⟨_,rests⟩ := canonicalText_unique item other _ _ printable.1 printable'.1
      ((delimited_cons ']' _).mpr (by decide)) ((delimited_cons ',' _).mpr (by decide)) same
    simp at rests
  | item :: next :: items, [other], rest, rest', printable, printable', same => by
    simp only [canonicalItems,List.append_assoc,List.cons_append] at same
    obtain ⟨_,rests⟩ := canonicalText_unique item other _ _ printable.1 printable'.1
      ((delimited_cons ',' _).mpr (by decide)) ((delimited_cons ']' _).mpr (by decide)) same
    simp at rests
  | item :: next :: items, other :: next' :: others, rest, rest', printable, printable', same => by
    simp only [canonicalItems_cons,List.append_assoc,List.cons_append] at same
    obtain ⟨rfl,rests⟩ := canonicalText_unique item other _ _ printable.1 printable'.1
      ((delimited_cons ',' _).mpr (by decide)) ((delimited_cons ',' _).mpr (by decide)) same
    obtain ⟨tails,rfl⟩ := canonicalItems_unique (next :: items) (next' :: others) rest rest' printable.2 printable'.2
      (List.cons_injective rests)
    exact ⟨by rw [tails],rfl⟩

theorem canonicalFields_unique : ∀ (fields others : List (String × Json)) (rest rest' : List Char),
    PrintableFields fields → PrintableFields others →
    canonicalFields fields ++ '}' :: rest = canonicalFields others ++ '}' :: rest' → fields = others ∧ rest = rest'
  | [], [], rest, rest', _, _, same => by
    simpa [canonicalFields] using same
  | [], [(key,other)], rest, rest', _, printable', same => by
    simp [canonicalFields,quoted] at same
  | [], (key,other) :: next :: others, rest, rest', _, printable', same => by
    simp [canonicalFields,quoted] at same
  | [(key,value)], [], rest, rest', printable, _, same => by
    simp [canonicalFields,quoted] at same
  | (key,value) :: next :: fields, [], rest, rest', printable, _, same => by
    simp [canonicalFields,quoted] at same
  | [(key,value)], [(key',other)], rest, rest', printable, printable', same => by
    simp only [canonicalFields,List.append_assoc,List.cons_append] at same
    obtain ⟨rfl,values⟩ := quoted_unique same
    obtain ⟨rfl,rests⟩ := canonicalText_unique value other _ _ printable.1 printable'.1
      ((delimited_cons '}' _).mpr (by decide)) ((delimited_cons '}' _).mpr (by decide)) (List.cons_injective values)
    exact ⟨rfl,by simpa using rests⟩
  | [(key,value)], (key',other) :: next :: others, rest, rest', printable, printable', same => by
    simp only [canonicalFields,List.append_assoc,List.cons_append] at same
    obtain ⟨rfl,values⟩ := quoted_unique same
    obtain ⟨_,rests⟩ := canonicalText_unique value other _ _ printable.1 printable'.1
      ((delimited_cons '}' _).mpr (by decide)) ((delimited_cons ',' _).mpr (by decide)) (List.cons_injective values)
    simp at rests
  | (key,value) :: next :: fields, [(key',other)], rest, rest', printable, printable', same => by
    simp only [canonicalFields,List.append_assoc,List.cons_append] at same
    obtain ⟨rfl,values⟩ := quoted_unique same
    obtain ⟨_,rests⟩ := canonicalText_unique value other _ _ printable.1 printable'.1
      ((delimited_cons ',' _).mpr (by decide)) ((delimited_cons '}' _).mpr (by decide)) (List.cons_injective values)
    simp at rests
  | (key,value) :: next :: fields, (key',other) :: next' :: others, rest, rest', printable, printable', same => by
    simp only [canonicalFields_cons,List.append_assoc,List.cons_append] at same
    obtain ⟨rfl,values⟩ := quoted_unique same
    obtain ⟨rfl,rests⟩ := canonicalText_unique value other _ _ printable.1 printable'.1
      ((delimited_cons ',' _).mpr (by decide)) ((delimited_cons ',' _).mpr (by decide)) (List.cons_injective values)
    obtain ⟨tails,rfl⟩ := canonicalFields_unique (next :: fields) (next' :: others) rest rest' printable.2 printable'.2
      (List.cons_injective rests)
    exact ⟨by rw [tails],rfl⟩

end

theorem utf8_injective {text text' : List Char}
    (same : utf8 (String.ofList text) = utf8 (String.ofList text')) : text = text' := by
  simp only [utf8,String.toList_ofList] at same
  have bytes : text.utf8Encode = text'.utf8Encode := congrArg List.toByteArray same
  have decoded := congrArg ByteArray.utf8Decode? bytes
  rw [List.utf8Decode?_utf8Encode,List.utf8Decode?_utf8Encode] at decoded
  exact congrArg Array.toList (Option.some.inj decoded)

theorem canonicalBytes_injective {value other : Json} (printable : Printable value) (printable' : Printable other)
    (same : canonicalBytes value = canonicalBytes other) : value = other := by
  have texts := congrArg (· ++ []) (utf8_injective same)
  exact (canonicalText_unique value other [] [] printable printable' (by simp [Delimited]) (by simp [Delimited]) texts).1

end Text

section Removal

-- A step from a value to one inside it.
inductive Step where
  | key (name : String)
  | index (i : Nat)
  deriving DecidableEq

mutual

-- A value without the fields at the paths that are removed.
def without (removed : List Step → Bool) : Json → Json
  | .array items => .array (withoutItems removed 0 items)
  | .object fields => .object (withoutFields removed fields)
  | other => other

def withoutItems (removed : List Step → Bool) (i : Nat) : List Json → List Json
  | [] => []
  | item :: rest => without (fun path => removed (.index i :: path)) item :: withoutItems removed (i + 1) rest

def withoutFields (removed : List Step → Bool) : List (String × Json) → List (String × Json)
  | [] => []
  | (key, value) :: rest =>
    if removed [.key key] then withoutFields removed rest
    else (key, without (fun path => removed (.key key :: path)) value) :: withoutFields removed rest

end

-- A pattern of keys, `*` standing for every element of an array.
def covers : List String → List Step → Bool
  | [], [] => true
  | name :: rest, .index _ :: path => name == "*" && covers rest path
  | name :: rest, .key key :: path => name != "*" && name == key && covers rest path
  | _, _ => false

theorem covers_star (rest : List String) (i : Nat) (path : List Step) :
    covers ("*" :: rest) (.index i :: path) = covers rest path := by
  simp [covers]

theorem covers_star_key (rest : List String) (key : String) (path : List Step) :
    covers ("*" :: rest) (.key key :: path) = false := by
  simp [covers]

theorem covers_key_index (plain : name ≠ "*") (rest : List String) (i : Nat) (path : List Step) :
    covers (name :: rest) (.index i :: path) = false := by
  simp [covers,plain]

theorem covers_key (plain : name ≠ "*") (rest : List String) (key : String) (path : List Step) :
    covers (name :: rest) (.key key :: path) = (name == key && covers rest path) := by
  simp [covers,bne_iff_ne.mpr plain]

theorem covers_nil_cons (step : Step) (path : List Step) : covers [] (step :: path) = false := rfl

theorem covers_cons_nil (name : String) (rest : List String) : covers (name :: rest) [] = false := by
  simp [covers]

-- The ID, the execution and the incidental fields of the payload.
def unidentified (path : List Step) : Bool :=
  match path with
  | .key key :: rest =>
    (rest.isEmpty && (key == "id" || key == "execution")) ||
      (key == "payload" && incidental.any fun pattern => covers pattern rest)
  | _ => false

-- What a record says apart from these.
def identifiedPart (record : Json) : Json := without unidentified record

mutual

theorem without_nothing : ∀ (value : Json) (removed : List Step → Bool),
    (∀ step path, removed (step :: path) = false) → without removed value = value
  | .array items, removed, nothing => by
    rw [without,withoutItems_nothing items removed 0 nothing]
  | .object fields, removed, nothing => by
    rw [without,withoutFields_nothing fields removed nothing]
  | .null, _, _ | .bool _, _, _ | .number _, _, _ | .real _, _, _ | .text _, _, _ => by simp [without]

theorem withoutItems_nothing : ∀ (items : List Json) (removed : List Step → Bool) (i : Nat),
    (∀ step path, removed (step :: path) = false) → withoutItems removed i items = items
  | [], _, _, _ => by simp [withoutItems]
  | item :: rest, removed, i, nothing => by
    rw [withoutItems,without_nothing item (fun path => removed (.index i :: path)) fun _ _ => nothing _ _,
      withoutItems_nothing rest removed (i + 1) nothing]

theorem withoutFields_nothing : ∀ (fields : List (String × Json)) (removed : List Step → Bool),
    (∀ step path, removed (step :: path) = false) → withoutFields removed fields = fields
  | [], _, _ => by simp [withoutFields]
  | (key,value) :: rest, removed, nothing => by
    rw [withoutFields,if_neg (by simp [nothing]),
      without_nothing value (fun path => removed (.key key :: path)) fun _ _ => nothing _ _,
      withoutFields_nothing rest removed nothing]

end

mutual

theorem without_without : ∀ (value : Json) (first second : List Step → Bool),
    without second (without first value) = without (fun path => first path || second path) value
  | .array items, first, second => by
    simp only [without,withoutItems_without items first second 0]
  | .object fields, first, second => by
    simp only [without,withoutFields_without fields first second]
  | .null, _, _ | .bool _, _, _ | .number _, _, _ | .real _, _, _ | .text _, _, _ => by simp [without]

theorem withoutItems_without : ∀ (items : List Json) (first second : List Step → Bool) (i : Nat),
    withoutItems second i (withoutItems first i items) = withoutItems (fun path => first path || second path) i items
  | [], _, _, _ => by simp [withoutItems]
  | item :: rest, first, second, i => by
    simp only [withoutItems,without_without item,withoutItems_without rest first second (i + 1)]

theorem withoutFields_without : ∀ (fields : List (String × Json)) (first second : List Step → Bool),
    withoutFields second (withoutFields first fields) = withoutFields (fun path => first path || second path) fields
  | [], _, _ => by simp [withoutFields]
  | (key,value) :: rest, first, second => by
    simp only [withoutFields]
    by_cases goneFirst : first [.key key] = true
    · simp only [goneFirst,if_true,Bool.true_or,withoutFields_without rest first second]
    · by_cases goneSecond : second [.key key] = true
      · simp [goneFirst,goneSecond,withoutFields,withoutFields_without rest first second]
      · simp [goneFirst,goneSecond,withoutFields,without_without value,withoutFields_without rest first second]

end

theorem withoutItems_map {removed : List Step → Bool} {change : Json → Json} (items : List Json) (i : Nat)
    (each : ∀ j, ∀ item ∈ items, without (fun path => removed (.index j :: path)) item = change item) :
    withoutItems removed i items = items.map change := by
  induction items generalizing i with
  | nil => simp [withoutItems]
  | cons item rest ih =>
    rw [withoutItems,each i item (by simp),ih (i + 1) fun j other inside => each j other (by simp [inside]),List.map_cons]

theorem array_without (removed : List Step → Bool) (nothing : ∀ i path, removed (.index i :: path) = false)
    (items : List Json) : without removed (.array items) = .array items := by
  rw [without,@withoutItems_map _ (fun item => item) items 0
    fun i item _ => without_nothing item (fun path => removed (.index i :: path)) fun _ _ => nothing i _]
  simp

theorem removeField_without (plain : name ≠ "*") (fields : List (String × Json)) :
    withoutFields (covers [name]) fields = removeField name fields := by
  induction fields with
  | nil => simp [withoutFields,removeField]
  | cons entry others ih =>
    obtain ⟨key,value⟩ := entry
    have below : without (fun path => covers [name] (.key key :: path)) value = value :=
      without_nothing value _ fun _ _ => by rw [covers_key plain,covers_nil_cons,Bool.and_false]
    rw [withoutFields,covers_key plain,below,ih]
    by_cases same : name = key
    · subst same
      simp [removeField,covers]
    · simp [removeField,same,Ne.symm same]

theorem mapField_without (plain : name ≠ "*") {next : String} {tail : List String} {change : Json → Json}
    (each : ∀ value, change value = without (covers (next :: tail)) value) (fields : List (String × Json)) :
    withoutFields (covers (name :: next :: tail)) fields = mapField name change fields := by
  induction fields with
  | nil => simp [withoutFields,mapField]
  | cons entry others ih =>
    obtain ⟨key,value⟩ := entry
    have kept : ¬ covers (name :: next :: tail) [.key key] = true := by
      rw [covers_key plain,covers_cons_nil,Bool.and_false]
      exact Bool.false_ne_true
    have below : (fun path => covers (name :: next :: tail) (.key key :: path)) =
        fun path => name == key && covers (next :: tail) path :=
      funext fun path => covers_key plain _ key path
    rw [withoutFields,if_neg kept,below,ih]
    by_cases same : name = key
    · subst same
      simp [mapField,each]
    · have nothing : without (fun path => name == key && covers (next :: tail) path) value = value :=
        without_nothing value _ fun step path => by simp [same]
      rw [nothing]
      simp [mapField,Ne.symm same]

theorem strip_star (rest : List String) (each : ∀ value, strip rest value = without (covers rest) value) (value : Json) :
    strip ("*" :: rest) value = without (covers ("*" :: rest)) value := by
  cases value with
  | array items =>
    have below (i : Nat) : (fun path => covers ("*" :: rest) (.index i :: path)) = covers rest :=
      funext fun path => covers_star rest i path
    rw [without,withoutItems_map items 0 fun i item _ => by rw [below,← each]]
    simp [strip]
  | object fields =>
    have nothing : without (covers ("*" :: rest)) (.object fields) = .object fields := by
      rw [without]
      congr 1
      induction fields with
      | nil => simp [withoutFields]
      | cons entry others ih =>
        obtain ⟨key,value⟩ := entry
        rw [withoutFields,covers_star_key,if_neg Bool.false_ne_true,ih,
          without_nothing value (fun path => covers ("*" :: rest) (.key key :: path))
            fun _ _ => covers_star_key rest key _]
    rw [nothing]
    simp [strip]
  | _ => simp [strip,without]

theorem strip_without (pattern : List String) (value : Json) : strip pattern value = without (covers pattern) value := by
  induction pattern generalizing value with
  | nil => rw [without_nothing value (covers []) covers_nil_cons,strip]
  | cons name rest ih =>
    by_cases star : name = "*"
    · subst star
      exact strip_star rest ih value
    · cases value with
      | array items =>
        rw [array_without (covers (name :: rest)) (covers_key_index star rest)]
        cases rest <;> simp [strip,star]
      | object fields =>
        cases rest with
        | nil =>
          rw [without,removeField_without star]
          simp [strip,star]
        | cons next tail =>
          rw [without,mapField_without star ih]
          simp [strip,star]
      | _ => cases rest <;> simp [strip,star,without]

theorem stripAll_without (patterns : List (List String)) (value : Json) :
    stripAll patterns value = without (fun path => patterns.any fun pattern => covers pattern path) value := by
  induction patterns generalizing value with
  | nil => exact (without_nothing value _ fun _ _ => rfl).symm
  | cons pattern rest ih =>
    rw [stripAll,List.foldl_cons,← stripAll,ih,strip_without,without_without]
    simp only [List.any_cons]

theorem projection_identified (record : Json) : projection record = identifiedPart record := by
  cases record with
  | object fields =>
    rw [projection,identifiedPart,without]
    congr 1
    induction fields with
    | nil => simp [withoutFields,removeField,mapField]
    | cons entry rest ih =>
      obtain ⟨key,value⟩ := entry
      rw [withoutFields,← ih]
      by_cases id : key = "id"
      · subst id
        simp [removeField,unidentified]
      by_cases execution : key = "execution"
      · subst execution
        simp [removeField,unidentified]
      have kept : ¬ unidentified [.key key] = true := by
        simp [unidentified,id,execution,incidental,covers_cons_nil]
      rw [if_neg kept]
      by_cases payload : key = "payload"
      · subst payload
        have below : (fun path => unidentified (.key "payload" :: path)) =
            fun path => incidental.any fun pattern => covers pattern path := by
          funext path
          simp [unidentified]
        rw [below,← stripAll_without]
        simp [removeField,mapField]
      · have nothing : without (fun path => unidentified (.key key :: path)) value = value :=
          without_nothing value _ fun step path => by simp [unidentified,payload]
        rw [nothing]
        simp [removeField,mapField,id,execution,payload]
  | array items =>
    rw [identifiedPart,array_without unidentified fun _ _ => rfl]
    rfl
  | _ => simp [projection,identifiedPart,without]

mutual

theorem without_printable : ∀ (value : Json) (removed : List Step → Bool), Printable value → Printable (without removed value)
  | .array items, removed, printable => by
    rw [without]
    exact withoutItems_printable items removed 0 printable
  | .object fields, removed, printable => by
    rw [without]
    exact withoutFields_printable fields removed printable
  | .null, _, printable | .bool _, _, printable | .number _, _, printable | .real _, _, printable
  | .text _, _, printable => by simpa only [without] using printable

theorem withoutItems_printable : ∀ (items : List Json) (removed : List Step → Bool) (i : Nat),
    PrintableItems items → PrintableItems (withoutItems removed i items)
  | [], _, _, _ => by simp [withoutItems,PrintableItems]
  | item :: rest, removed, i, printable => by
    rw [withoutItems]
    exact ⟨without_printable item _ printable.1,withoutItems_printable rest removed (i + 1) printable.2⟩

theorem withoutFields_printable : ∀ (fields : List (String × Json)) (removed : List Step → Bool),
    PrintableFields fields → PrintableFields (withoutFields removed fields)
  | [], _, _ => by simp [withoutFields,PrintableFields]
  | (key,value) :: rest, removed, printable => by
    rw [withoutFields]
    split
    · exact withoutFields_printable rest removed printable.2
    · exact ⟨without_printable value _ printable.1,withoutFields_printable rest removed printable.2⟩

end

end Removal

theorem validateRecord_id {tool : Tool} {record : Json} (accepted : validateRecord tool record = .ok ()) :
    record.get "id" = .text (contentId tool record) := by
  unfold validateRecord at accepted
  split at accepted
  · cases accepted
  split at accepted
  · cases accepted
  split at accepted
  · cases accepted
  · rename_i id given
    split at accepted
    · cases accepted
    · split at accepted
      · cases accepted
      · rename_i same
        rw [not_not] at same
        rw [same]
        cases record_ : record.get "id" with
        | text value =>
          rw [record_] at given
          exact congrArg Json.text (Option.some.inj given)
        | _ =>
          rw [record_] at given
          cases given

theorem contentId_unique {tool : Tool} (hash : Function.Injective tool.sha256) {record other : Json}
    (printable : Printable record) (printable' : Printable other)
    (same : contentId tool record = contentId tool other) : identifiedPart record = identifiedPart other := by
  have hashes : tool.sha256 (canonicalBytes (projection record)) = tool.sha256 (canonicalBytes (projection other)) := by
    have texts := congrArg String.toList same
    simp only [contentId,String.toList_append] at texts
    exact String.toList_injective (List.append_cancel_left texts)
  rw [projection_identified,projection_identified] at hashes
  exact canonicalBytes_injective (without_printable record _ printable) (without_printable other _ printable')
    (hash hashes)

-- The canonical form tells the value, and the ID of an accepted record everything in it that is not incidental.
theorem contentId_identifies (tool : Tool) (hash : Function.Injective tool.sha256) :
    (∀ value other, Printable value → Printable other → (canonicalBytes value = canonicalBytes other ↔ value = other)) ∧
    (∀ record other, Printable record → Printable other →
      validateRecord tool record = .ok () → validateRecord tool other = .ok () →
      (record.get "id" = other.get "id" ↔ identifiedPart record = identifiedPart other)) ∧
    ∀ record changed, Printable record → Printable changed →
      validateRecord tool record = .ok () → identifiedPart changed ≠ identifiedPart record →
      changed.get "id" ≠ record.get "id" ∨ validateRecord tool changed ≠ .ok () := by
  have identifies : ∀ record other, Printable record → Printable other →
      validateRecord tool record = .ok () → validateRecord tool other = .ok () →
      (record.get "id" = other.get "id" ↔ identifiedPart record = identifiedPart other) := by
    intro record other printable printable' accepted accepted'
    rw [validateRecord_id accepted,validateRecord_id accepted']
    constructor
    · intro same
      exact contentId_unique hash printable printable' (Json.text.inj same)
    · intro same
      rw [contentId,contentId,projection_identified,projection_identified,same]
  refine ⟨fun value other printable printable' => ⟨canonicalBytes_injective printable printable',congrArg _⟩,
    identifies,?_⟩
  intro record changed printable printable' accepted differs
  by_contra kept
  push Not at kept
  exact differs ((identifies changed record printable' printable kept.2 accepted).mp kept.1)

def listedRecord (time lines : Int) : Json :=
  .object [
    ("canonicalization",.text "rsleigh.evidence-canonical/v1"),
    ("coverage",.object [("complete",.bool true)]),
    ("execution",.object [("recorded_at_unix_ms",.number time)]),
    ("id",.text "sha256:54cb12bbee2e68b4e68979bf02ce5cf65d30e3d69ab2d9b412e9640d2e5d6ad2"),
    ("kind",.text "symbols"),
    ("limitations",.object
      [("diagnostic_codes",.array []),("error",.null),("selection_error",.null),("warnings",.array [])]),
    ("operation",.object [("schema",.text "symbols/v1")]),
    ("payload",.object
      [("metrics",.object [("lines",.number lines)]),("schema",.text "symbols/v1"),("status",.text "ok")]),
    ("references",.array []),
    ("schema",.text "rsleigh.evidence/v1"),
    ("status",.text "ok"),
    ("subject",.object
      [("binary_sha256",.text "e3b0c44298fc1c149afbf4c8996fb92427ae41e4649b934ca495991b7852b855")])
  ]

-- An injective hash with the SHA-256 digest of the record above, less what is not identified.
def listedHash (bytes : List UInt8) : String :=
  if bytes = canonicalBytes (projection (listedRecord 0 0)) then
    "54cb12bbee2e68b4e68979bf02ce5cf65d30e3d69ab2d9b412e9640d2e5d6ad2"
  else String.ofList ('x' :: bytes.map UInt8.toChar)

theorem listedHash_injective : Function.Injective listedHash := by
  have characters : Function.Injective UInt8.toChar :=
    fun byte other same => UInt8.toUInt32_inj.mp (congrArg Char.val same)
  have apart (bytes : List UInt8) : "54cb12bbee2e68b4e68979bf02ce5cf65d30e3d69ab2d9b412e9640d2e5d6ad2" ≠
      String.ofList ('x' :: bytes.map UInt8.toChar) := by
    intro same
    have heads := congrArg (fun text => text.toList.head?) same
    simp at heads
  intro bytes other same
  unfold listedHash at same
  split at same <;> split at same
  · simp_all
  · exact absurd same (apart other)
  · exact absurd same.symm (apart bytes)
  · have texts := congrArg String.toList same
    simp only [String.toList_ofList,List.cons.injEq,true_and] at texts
    exact (List.map_injective_iff.mpr characters) texts

def listedTool : Tool := ⟨listedHash,fun _ => none,"",.null⟩

@[simp] theorem listedTool_sha256 : listedTool.sha256 = listedHash :=
  rfl

theorem listedRecord_projection (time lines : Int) :
    projection (listedRecord time lines) = projection (listedRecord 0 0) := by
  rfl

theorem listedHash_listed : listedHash (canonicalBytes (projection (listedRecord 0 0))) =
    "54cb12bbee2e68b4e68979bf02ce5cf65d30e3d69ab2d9b412e9640d2e5d6ad2" := by
  simp only [listedHash,if_true]

theorem contentId_listed (time lines : Int) : contentId listedTool (listedRecord time lines) =
    "sha256:54cb12bbee2e68b4e68979bf02ce5cf65d30e3d69ab2d9b412e9640d2e5d6ad2" := by
  rw [contentId,listedRecord_projection,listedTool_sha256,listedHash_listed]
  decide +kernel

theorem listedRecord_first : validateRecord listedTool (listedRecord 1 10) = .ok () := by
  rw [validateRecord,contentId_listed]
  decide +kernel

theorem listedRecord_second : validateRecord listedTool (listedRecord 2 20) = .ok () := by
  rw [validateRecord,contentId_listed]
  decide +kernel

theorem contentId_identifies_listed : identifiedPart (listedRecord 1 10) = identifiedPart (listedRecord 2 20) :=
  ((contentId_identifies listedTool listedHash_injective).2.1 (listedRecord 1 10) (listedRecord 2 20)
    (by simp [listedRecord,Printable,PrintableFields,PrintableItems])
    (by simp [listedRecord,Printable,PrintableFields,PrintableItems]) listedRecord_first listedRecord_second).mp rfl

end Rsleigh.Agent

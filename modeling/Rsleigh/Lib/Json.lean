import Mathlib

namespace Rsleigh

-- JSON values. The fields of an object are a map: they are kept in the order of their keys.
inductive Json where
  | null
  | bool (value : Bool)
  | number (value : Int)
  -- A number with a fraction, by its shortest decimal text.
  | real (digits : String)
  | text (value : String)
  | array (items : List Json)
  | object (fields : List (String × Json))
  deriving Inhabited

namespace Json

mutual

def same : Json → Json → Bool
  | .null, .null => true
  | .bool left, .bool right => left == right
  | .number left, .number right => decide (left = right)
  | .real left, .real right => decide (left = right)
  | .text left, .text right => decide (left = right)
  | .array left, .array right => sameItems left right
  | .object left, .object right => sameFields left right
  | _, _ => false

def sameItems : List Json → List Json → Bool
  | [], [] => true
  | left :: lefts, right :: rights => same left right && sameItems lefts rights
  | _, _ => false

def sameFields : List (String × Json) → List (String × Json) → Bool
  | [], [] => true
  | (key, left) :: lefts, (other, right) :: rights =>
    decide (key = other) && same left right && sameFields lefts rights
  | _, _ => false

end

mutual

theorem same_iff : ∀ left right : Json, same left right = true ↔ left = right
  | .null, right => by cases right <;> simp [same]
  | .bool left, right => by cases right <;> simp [same]
  | .number left, right => by cases right <;> simp [same]
  | .real left, right => by cases right <;> simp [same]
  | .text left, right => by cases right <;> simp [same]
  | .array left, right => by
    cases right with
    | array right => simp [same,sameItems_iff left right]
    | _ => simp [same]
  | .object left, right => by
    cases right with
    | object right => simp [same,sameFields_iff left right]
    | _ => simp [same]

theorem sameItems_iff : ∀ left right : List Json, sameItems left right = true ↔ left = right
  | [], right => by cases right <;> simp [sameItems]
  | left :: lefts, right => by
    cases right with
    | nil => simp [sameItems]
    | cons right rights => simp [sameItems,same_iff left right,sameItems_iff lefts rights]

theorem sameFields_iff : ∀ left right : List (String × Json), sameFields left right = true ↔ left = right
  | [], right => by cases right <;> simp [sameFields]
  | (key, left) :: lefts, right => by
    cases right with
    | nil => simp [sameFields]
    | cons right rights =>
      obtain ⟨other,right⟩ := right
      simp [sameFields,same_iff left right,sameFields_iff lefts rights]

end

instance : DecidableEq Json :=
  fun left right => decidable_of_iff (same left right = true) (same_iff left right)

def insertField (key : String) (value : Json) : List (String × Json) → List (String × Json)
  | [] => [(key, value)]
  | (other, kept) :: rest =>
    if key < other then (key, value) :: (other, kept) :: rest
    else if key = other then (key, value) :: rest
    else (other, kept) :: insertField key value rest

def field (key : String) : List (String × Json) → Option Json
  | [] => none
  | (other, value) :: rest => if key = other then some value else field key rest

theorem field_insertField {key other : String} {value : Json} {fields : List (String × Json)} :
    field key (insertField other value fields) = if key = other then some value else field key fields := by
  induction fields with
  | nil => simp [insertField,field]
  | cons head rest ih =>
    obtain ⟨first,kept⟩ := head
    by_cases below : other < first
    · simp [insertField,below,field]
    · by_cases equal : other = first
      · subst equal
        by_cases wanted : key = other <;> simp [insertField,below,field,wanted]
      · by_cases wanted : key = first
        · subst wanted
          simp [insertField,below,equal,field,Ne.symm equal]
        · simp [insertField,below,equal,field,wanted,ih]

-- An object written out field by field; a key that is written twice keeps its last value.
def record (fields : List (String × Json)) : Json :=
  .object (fields.foldl (fun fields (key, value) => insertField key value fields) [])

-- `value[key]`, which is null where there is no such field.
def get (value : Json) (key : String) : Json :=
  match value with
  | .object fields => (field key fields).getD .null
  | _ => .null

def set (value : Json) (key : String) (given : Json) : Json :=
  match value with
  | .object fields => .object (insertField key given fields)
  | other => other

def isNull : Json → Bool
  | .null => true
  | _ => false

def asText : Json → Option String
  | .text value => some value
  | _ => none

-- `as_u64`.
def asNatural : Json → Option Nat
  | .number value => if 0 ≤ value ∧ value < 2 ^ 64 then some value.toNat else none
  | _ => none

def asArray : Json → Option (List Json)
  | .array items => some items
  | _ => none

-- `as_array().into_iter().flatten()`.
def items (value : Json) : List Json :=
  (asArray value).getD []

def natural (value : Nat) : Json :=
  .number value

-- An optional value, null where there is none.
def optional (encode : α → Json) : Option α → Json
  | some value => encode value
  | none => .null

def texts (values : List String) : Json :=
  .array (values.map .text)

@[simp] theorem asText_text {value : String} : asText (.text value) = some value :=
  rfl

@[simp] theorem asText_null : asText .null = none :=
  rfl

@[simp] theorem get_null {key : String} : get .null key = .null :=
  rfl

@[simp] theorem items_null : items .null = [] :=
  rfl

@[simp] theorem items_array {values : List Json} : items (.array values) = values :=
  rfl

@[simp] theorem isNull_null : isNull .null = true :=
  rfl

@[simp] theorem isNull_text {value : String} : isNull (.text value) = false :=
  rfl

@[simp] theorem optional_some {encode : α → Json} {value : α} : Json.optional encode (some value) = encode value :=
  rfl

@[simp] theorem optional_none {encode : α → Json} : Json.optional encode none = .null :=
  rfl

theorem field_foldl {key : String} {written : List (String × Json)} {fields : List (String × Json)} :
    field key (written.foldl (fun fields (name, value) => insertField name value fields) fields) =
      ((written.reverse.find? fun (name, _) => key = name).map Prod.snd).or (field key fields) := by
  induction written generalizing fields with
  | nil => simp
  | cons head rest ih =>
    obtain ⟨name,value⟩ := head
    rw [List.foldl_cons,ih,field_insertField,List.reverse_cons,List.find?_append]
    cases (rest.reverse.find? fun (name, _) => key = name) with
    | some found => simp
    | none => by_cases wanted : key = name <;> simp [wanted]

theorem get_record {key : String} {fields : List (String × Json)} :
    (record fields).get key = ((fields.reverse.find? fun (name, _) => key = name).map Prod.snd).getD .null := by
  unfold record get
  simp only [field_foldl]
  simp [field]

theorem get_set {fields : List (String × Json)} {key other : String} {value : Json} :
    ((Json.object fields).set other value).get key = if key = other then value else (Json.object fields).get key := by
  by_cases wanted : key = other <;> simp [set,get,field_insertField,wanted]

theorem get_set_ne {value given : Json} {key other : String} (differs : key ≠ other) :
    (value.set other given).get key = value.get key := by
  cases value with
  | object fields => simp [get_set,differs]
  | _ => rfl

end Json

end Rsleigh

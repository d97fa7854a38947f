import Mathlib.Data.List.Basic

namespace Rewriting

-- A pass walks a list by index. At a site it either rewrites the list and looks
-- at the same index again, or it moves on.
variable {α : Type}

def scan (site : List α → Nat → Option (List α)) : Nat → Nat → List α → List α
  | 0,_,xs => xs
  | fuel + 1,i,xs =>
    if i < xs.length then
      match site xs i with
      | some ys => scan site fuel i ys
      | none => scan site fuel (i + 1) xs
    else xs

-- The lists and indices at which the walk rewrites, in order.
def rewrites (site : List α → Nat → Option (List α)) : Nat → Nat → List α → List (List α × Nat)
  | 0,_,_ => []
  | fuel + 1,i,xs =>
    if i < xs.length then
      match site xs i with
      | some ys => (xs,i) :: rewrites site fuel i ys
      | none => rewrites site fuel (i + 1) xs
    else []

def pass (site : List α → Nat → Option (List α)) (xs : List α) : List α := scan site xs.length 0 xs

def passRewrites (site : List α → Nat → Option (List α)) (xs : List α) : List (List α × Nat) :=
  rewrites site xs.length 0 xs

theorem scan_rule {site : List α → Nat → Option (List α)} {Good : List α → Prop} {Related : List α → List α → Prop}
    {Safe : List α → Nat → Prop} (refl : ∀ xs, Related xs xs)
    (trans : ∀ xs ys zs, Related xs ys → Related ys zs → Related xs zs)
    (rewrite : ∀ xs i ys, Good xs → Safe xs i → site xs i = some ys → Good ys ∧ Related xs ys)
    (good : Good xs) (safe : ∀ visit ∈ rewrites site fuel i xs, Safe visit.1 visit.2) :
    Good (scan site fuel i xs) ∧ Related xs (scan site fuel i xs) := by
  induction fuel generalizing i xs with
  | zero => exact ⟨good,refl xs⟩
  | succ fuel ih =>
    unfold scan
    unfold rewrites at safe
    split
    · rename_i inside
      rw [if_pos inside] at safe
      cases found : site xs i with
      | none =>
        simp only [found] at safe ⊢
        exact ih good safe
      | some ys =>
        simp only [found] at safe ⊢
        obtain ⟨good',related⟩ := rewrite xs i ys good (safe (xs,i) List.mem_cons_self) found
        obtain ⟨last,rest⟩ := ih good' fun visit member => safe visit (List.mem_cons_of_mem _ member)
        exact ⟨last,trans xs ys _ related rest⟩
    · exact ⟨good,refl xs⟩

theorem scan_always {site : List α → Nat → Option (List α)} {Good : List α → Prop}
    {Related : List α → List α → Prop} (refl : ∀ xs, Related xs xs)
    (trans : ∀ xs ys zs, Related xs ys → Related ys zs → Related xs zs)
    (rewrite : ∀ xs i ys, Good xs → site xs i = some ys → Good ys ∧ Related xs ys) (good : Good xs) :
    Good (scan site fuel i xs) ∧ Related xs (scan site fuel i xs) :=
  scan_rule refl trans (fun xs i ys good (_ : True) found => rewrite xs i ys good found) good fun _ _ => trivial

theorem scan_fuel {site : List α → Nat → Option (List α)}
    (shrinks : ∀ xs i ys, site xs i = some ys → ys.length < xs.length) (enough : xs.length - i ≤ fuel) :
    scan site (fuel + extra) i xs = scan site fuel i xs := by
  induction fuel generalizing i xs with
  | zero =>
    cases extra with
    | zero => rfl
    | succ extra =>
      have past : ¬ i < xs.length := by omega
      simp [scan,past]
  | succ fuel ih =>
    rw [Nat.add_right_comm]
    unfold scan
    split
    · rename_i inside
      cases found : site xs i with
      | none => exact ih (by omega)
      | some ys =>
        have shorter := shrinks xs i ys found
        exact ih (by omega)
    · rfl

theorem modify_at (before : List α) (x : α) (after : List α) (f : α → α) :
    (before ++ x :: after).modify before.length f = before ++ f x :: after := by
  induction before with
  | nil => rfl
  | cons y ys ih => simpa using ih

theorem set_at (before : List α) (x y : α) (after : List α) :
    (before ++ x :: after).set before.length y = before ++ y :: after := by
  simp

theorem eraseIdx_at (before : List α) (x : α) (after : List α) :
    (before ++ x :: after).eraseIdx before.length = before ++ after := by
  induction before with
  | nil => rfl
  | cons y ys ih => simpa using ih

theorem take_drop_at (before middle : List α) (x : α) (after : List α) :
    ((before ++ x :: (middle ++ after)).take (before.length + 1 + middle.length)).drop (before.length + 1) = middle := by
  have shape : before ++ x :: (middle ++ after) = (before ++ [x]) ++ middle ++ after := by simp
  have total : before.length + 1 + middle.length = ((before ++ [x]) ++ middle).length := by
    rw [List.length_append,List.length_append,List.length_singleton]
  have first : before.length + 1 = (before ++ [x]).length := by
    rw [List.length_append,List.length_singleton]
  rw [shape,total,first,List.take_left,List.drop_left]

end Rewriting

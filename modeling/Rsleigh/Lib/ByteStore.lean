import Mathlib.Data.Set.Basic
import Mathlib.Logic.Equiv.Defs
import Mathlib.Tactic.Linarith

namespace ByteStore

-- Little-endian numbers kept in an addressed byte store. Nothing is assumed of
-- the addresses: a list of cells, least significant first, names a location.
variable {Cell : Type} [DecidableEq Cell]

def load (m : Cell → UInt8) : List Cell → Nat
  | [] => 0
  | c :: cs => (m c).toNat + 256 * load m cs

def store (m : Cell → UInt8) : List Cell → Nat → Cell → UInt8
  | [],_ => m
  | c :: cs,value => Function.update (store m cs (value / 256)) c (UInt8.ofNat value)

omit [DecidableEq Cell] in
theorem load_lt (m : Cell → UInt8) (cs : List Cell) : load m cs < 256 ^ cs.length := by
  induction cs with
  | nil => simp [load]
  | cons c cs ih =>
    have byte := (m c).toNat_lt
    simp only [load,List.length_cons,Nat.pow_succ]
    omega

omit [DecidableEq Cell] in
theorem load_congr {m m' : Cell → UInt8} (same : ∀ c ∈ cs, m c = m' c) : load m cs = load m' cs := by
  induction cs with
  | nil => rfl
  | cons c cs ih =>
    rw [load,load,same c List.mem_cons_self,ih fun d member => same d (List.mem_cons_of_mem _ member)]

theorem store_off (m : Cell → UInt8) (value : Nat) (off : c ∉ cs) : store m cs value c = m c := by
  induction cs generalizing value with
  | nil => rfl
  | cons d cs ih =>
    obtain ⟨differs,rest⟩ := not_or.mp (mt List.mem_cons.mpr off)
    rw [store,Function.update_of_ne differs,ih _ rest]

theorem store_on (m m' : Cell → UInt8) (value : Nat) (on : c ∈ cs) :
    store m cs value c = store m' cs value c := by
  induction cs generalizing value with
  | nil => simp at on
  | cons d cs ih =>
    by_cases equal : c = d
    · subst c; simp [store]
    · have rest : c ∈ cs := (List.mem_cons.mp on).resolve_left equal
      rw [store,store,Function.update_of_ne equal,Function.update_of_ne equal,ih _ rest]

theorem load_store (m : Cell → UInt8) (value : Nat) (distinct : cs.Nodup) :
    load (store m cs value) cs = value % 256 ^ cs.length := by
  induction cs generalizing value with
  | nil => simp [load,Nat.mod_one]
  | cons c cs ih =>
    obtain ⟨fresh,rest⟩ := List.nodup_cons.mp distinct
    have tail : load (store m (c :: cs) value) cs = (value / 256) % 256 ^ cs.length := by
      rw [← ih _ rest]
      refine load_congr fun d member => ?_
      have differs : d ≠ c := fun equal => fresh (equal ▸ member)
      rw [store,Function.update_of_ne differs]
    have head : (store m (c :: cs) value c).toNat = value % 256 := by
      rw [store,Function.update_self,UInt8.toNat_ofNat']
    rw [load,tail,head,List.length_cons,Nat.pow_succ,Nat.mul_comm (256 ^ _) 256,Nat.mod_mul]

theorem store_load (m : Cell → UInt8) (cs : List Cell) : store m cs (load m cs) = m := by
  induction cs with
  | nil => rfl
  | cons c cs ih =>
    have byte := (m c).toNat_lt
    have tail : ((m c).toNat + 256 * load m cs) / 256 = load m cs := by omega
    have head : UInt8.ofNat ((m c).toNat + 256 * load m cs) = m c := by
      apply UInt8.toNat_inj.mp
      rw [UInt8.toNat_ofNat']
      omega
    rw [load,store,tail,ih,head,Function.update_eq_self]

theorem store_mod (m : Cell → UInt8) (cs : List Cell) (value : Nat) :
    store m cs (value % 256 ^ cs.length) = store m cs value := by
  induction cs generalizing value with
  | nil => rfl
  | cons c cs ih =>
    have power : 256 ^ (c :: cs).length = 256 * 256 ^ cs.length := by
      rw [List.length_cons,Nat.pow_succ,Nat.mul_comm]
    have tail : value % (256 * 256 ^ cs.length) / 256 = value / 256 % 256 ^ cs.length :=
      Nat.mod_mul_right_div_self _ _ _
    have head : UInt8.ofNat (value % (256 * 256 ^ cs.length)) = UInt8.ofNat value := by
      apply UInt8.toNat_inj.mp
      rw [UInt8.toNat_ofNat',UInt8.toNat_ofNat']
      exact Nat.mod_mod_of_dvd _ (Dvd.intro _ rfl)
    rw [power,store,store,tail,head,ih]

-- The cells may be renamed: what is read and what is written stays the same.
omit [DecidableEq Cell] in
theorem load_rename (e : Cell ≃ Cell) (m : Cell → UInt8) (cs : List Cell) : load (m ∘ e.symm) (cs.map e) = load m cs := by
  induction cs with
  | nil => rfl
  | cons c cs ih => simp [load,ih]

theorem store_rename (e : Cell ≃ Cell) (m : Cell → UInt8) (cs : List Cell) (value : Nat) :
    store (m ∘ e.symm) (cs.map e) value = store m cs value ∘ e.symm := by
  induction cs generalizing value with
  | nil => rfl
  | cons c cs ih =>
    rw [List.map_cons,store,store,ih]
    funext d
    by_cases same : d = e c
    · subst same
      simp
    · have apart : e.symm d ≠ c := fun equal => same (by simp [← equal])
      simp [Function.update_of_ne same,Function.update_of_ne apart]

-- Two stores that may differ only inside a region.
def AgreeOff (region : Set Cell) (m m' : Cell → UInt8) : Prop := ∀ c, c ∉ region → m c = m' c

omit [DecidableEq Cell] in
theorem AgreeOff.refl (region : Set Cell) (m : Cell → UInt8) : AgreeOff region m m := fun _ _ => rfl

omit [DecidableEq Cell] in
theorem AgreeOff.symm (agree : AgreeOff region m m') : AgreeOff region m' m :=
  fun c off => (agree c off).symm

omit [DecidableEq Cell] in
theorem AgreeOff.trans (left : AgreeOff region m m') (right : AgreeOff region m' m'') :
    AgreeOff region m m'' := fun c off => (left c off).trans (right c off)

omit [DecidableEq Cell] in
theorem AgreeOff.mono (agree : AgreeOff region m m') (wider : region ⊆ region') : AgreeOff region' m m' :=
  fun c off => agree c fun member => off (wider member)

omit [DecidableEq Cell] in
theorem AgreeOff.load (agree : AgreeOff region m m') (off : ∀ c ∈ cs, c ∉ region) :
    load m cs = load m' cs := load_congr fun c member => agree c (off c member)

theorem AgreeOff.store (agree : AgreeOff region m m') (cs : List Cell) (value : Nat) :
    AgreeOff (region \ {c | c ∈ cs}) (store m cs value) (store m' cs value) := by
  intro c off
  by_cases written : c ∈ cs
  · exact store_on _ _ _ written
  · rw [store_off _ _ written,store_off _ _ written]
    exact agree c fun member => off ⟨member,written⟩

theorem AgreeOff.store_left (m : Cell → UInt8) (cs : List Cell) (value : Nat) :
    AgreeOff {c | c ∈ cs} (ByteStore.store m cs value) m := fun _ off => store_off _ _ off

end ByteStore

import Mathlib.Data.Nat.Basic
import Mathlib.Data.List.Basic

/-!
# Ordered maps

A map with numbers as keys, as the list of its entries in the order of the keys. `write` is the assignment
through a subscript and `touch` what a subscript alone does: it inserts a default value where there is none.
-/

abbrev KeyMap (α : Type) : Type := List (ℕ × α)

namespace KeyMap
variable {α : Type}

def get? : KeyMap α → ℕ → Option α
  | [], _ => none
  | (key, value) :: rest, k => if key = k then some value else get? rest k

def write (value : α) (k : ℕ) : KeyMap α → KeyMap α
  | [] => [(k, value)]
  | (key, old) :: rest =>
    if k < key then (k, value) :: (key, old) :: rest
    else if key = k then (k, value) :: rest
    else (key, old) :: write value k rest

def touch (value : α) (k : ℕ) (map : KeyMap α) : KeyMap α :=
  match map.get? k with
  | some _ => map
  | none => write value k map

def keys (map : KeyMap α) : List ℕ := map.map (·.1)

variable {map : KeyMap α} {value : α} {k j : ℕ}

@[simp] theorem get?_write_self : (write value k map).get? k = some value := by
  induction map with
  | nil => simp [write, get?]
  | cons entry rest ih =>
    rw [write]
    split
    · simp [get?]
    · split
      · simp [get?]
      · rename_i different
        rw [get?, if_neg different, ih]

theorem get?_write_other (different : j ≠ k) : (write value k map).get? j = map.get? j := by
  induction map with
  | nil => simp [write, get?, Ne.symm different]
  | cons entry rest ih =>
    rw [write]
    split
    · rw [get?, if_neg (Ne.symm different)]
    · split
      · rename_i same
        rw [get?, get?, if_neg (Ne.symm different), if_neg (by rw [same]; exact Ne.symm different)]
      · rw [get?, get?, ih]

theorem write_ne_nil : write value k map ≠ [] := by
  cases map with
  | nil => simp [write]
  | cons entry rest =>
    rw [write]
    split
    · simp
    · split <;> simp

theorem exists_get?_of_mem (h : k ∈ map.keys) : ∃ old, map.get? k = some old := by
  induction map with
  | nil => cases h
  | cons entry rest ih =>
    rw [get?]
    by_cases same : entry.1 = k
    · exact ⟨_, if_pos same⟩
    · rw [if_neg same]
      refine ih ((List.mem_cons.mp h).resolve_left ?_)
      exact Ne.symm same

theorem get?_eq_none (h : k ∉ map.keys) : map.get? k = none := by
  induction map with
  | nil => rfl
  | cons entry rest ih =>
    have outside : k ≠ entry.1 ∧ k ∉ keys rest := by simpa [keys] using h
    rw [get?, if_neg (Ne.symm outside.1), ih outside.2]

theorem touch_of_mem (h : k ∈ map.keys) : touch value k map = map := by
  obtain ⟨old, found⟩ := exists_get?_of_mem h
  rw [touch, found]

theorem get?_touch_self : (touch value k map).get? k = some ((map.get? k).getD value) := by
  unfold touch
  cases found : map.get? k with
  | none => rw [get?_write_self, Option.getD_none]
  | some old => rw [found, Option.getD_some]

end KeyMap

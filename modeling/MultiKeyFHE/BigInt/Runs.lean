import MultiKeyFHE.BigInt.Modular
import Mathlib.Logic.Function.Basic

/-!
# Runs of big integer operations

Registers of dynamic big integers and commands that work on them, next to the same commands on registers of natural
numbers. A register that is normalised stands for its number, and as long as every command leaves room for the
position of the top bit, the two keep step.
-/

namespace MultiKeyFHE.Ubint
open InPlace

inductive Op where
  | add | addEq | sub | subEq | mul
  | exp (p : ℕ)
  | lShift (shift : ℕ)
  | lShiftEq (shift : ℕ)
  | rShift (shift : ℕ)
  | rShiftEq (shift : ℕ)
  | modAdd | modSub | modMul
  | compare
  deriving DecidableEq, Repr

/-- What a command returns: an integer, or what `Compare` says. -/
inductive Outcome (α : Type) where
  | number (x : α)
  | order (sign : ℤ)

namespace Op

def run (l : LimbT) (a b modulus : Ubint) : Op → Except Fault (Outcome Ubint)
  | add => .ok (.number (a.add l b))
  | addEq => .ok (.number (a.addEq l b))
  | sub => .number <$> a.sub l b
  | subEq => .number <$> a.subEq l b
  | mul => .ok (.number (a.mul l b))
  | exp p => .ok (.number (a.exp l p))
  | lShift shift => .ok (.number (a.lShift l shift))
  | lShiftEq shift => .ok (.number (a.lShiftEq l shift))
  | rShift shift => .number <$> a.rShift l shift
  | rShiftEq shift => .number <$> a.rShiftEq l shift
  | modAdd => .number <$> a.modAdd l b modulus
  | modSub => .number <$> a.modSub l b modulus
  | modMul => .number <$> a.modMul l b modulus
  | compare => .order <$> Ubint.compare a b

/-- The number that an operation means. -/
def mean (a b m : ℕ) : Op → Outcome ℕ
  | add | addEq => .number (a + b)
  | sub | subEq => .number (a - b)
  | mul => .number (a * b)
  | exp p => .number (a ^ p)
  | lShift shift | lShiftEq shift => .number (a <<< shift)
  | rShift shift | rShiftEq shift => .number (a >>> shift)
  | modAdd => .number ((a + b) % m)
  | modSub => .number (((a : ℤ) - b) % m).toNat
  | modMul => .number (a * b % m)
  | compare => .order (order a b)

/-- The modular operations are asked for a modulus of at least two. -/
def Proper (m : ℕ) : Op → Prop
  | modAdd | modSub | modMul => 2 ≤ m
  | _ => True

/-- What an operation builds before it reduces has fewer than `2 ^ 32` bits. -/
def Fits (a b m : ℕ) : Op → Prop
  | add | addEq => (a + b).size < 2 ^ 32
  | mul => (a * b).size < 2 ^ 32
  | exp p => (a ^ p).size < 2 ^ 32
  | lShift shift | lShiftEq shift => (a <<< shift).size < 2 ^ 32
  | modAdd => (a % m + b % m).size < 2 ^ 32
  | modSub => a % m < b % m → (m + a % m).size < 2 ^ 32
  | modMul => (a % m * (b % m)).size < 2 ^ 32
  | sub | subEq | rShift _ | rShiftEq _ | compare => True

/-- The forms that assign to their first operand. -/
def inPlace : Op → Bool
  | addEq | subEq | lShiftEq _ | rShiftEq _ => true
  | _ => false

end Op

/-- An operation, the registers of its operands, and the register for the result of a form that returns one. -/
structure Command where
  op : Op
  a : ℕ
  b : ℕ
  modulus : ℕ
  result : ℕ

namespace Command

def target (command : Command) : ℕ := if command.op.inPlace then command.a else command.result

def keep {α : Type} (command : Command) (registers : ℕ → α) : Outcome α → ℕ → α
  | .number x => Function.update registers command.target x
  | .order _ => registers

def step (l : LimbT) (command : Command) (registers : ℕ → Ubint) : Except Fault ((ℕ → Ubint) × Outcome Ubint) := do
  let outcome ← command.op.run l (registers command.a) (registers command.b) (registers command.modulus)
  return (command.keep registers outcome, outcome)

def run (l : LimbT) : List Command → (ℕ → Ubint) → Except Fault ((ℕ → Ubint) × List (Outcome Ubint))
  | [], registers => .ok (registers, [])
  | command :: rest, registers => do
    let (registers, outcome) ← command.step l registers
    let (registers, outcomes) ← run l rest registers
    return (registers, outcome :: outcomes)

/-! ### The same on natural numbers -/

def mean (command : Command) (numbers : ℕ → ℕ) : Outcome ℕ :=
  command.op.mean (numbers command.a) (numbers command.b) (numbers command.modulus)

def meanRun : List Command → (ℕ → ℕ) → (ℕ → ℕ) × List (Outcome ℕ)
  | [], numbers => (numbers, [])
  | command :: rest, numbers =>
    let later := meanRun rest (command.keep numbers (command.mean numbers))
    (later.1, command.mean numbers :: later.2)

/-- Every command of the run satisfies a condition on the numbers it works on. -/
def Along (condition : Op → ℕ → ℕ → ℕ → Prop) : List Command → (ℕ → ℕ) → Prop
  | [], _ => True
  | command :: rest, numbers =>
    condition command.op (numbers command.a) (numbers command.b) (numbers command.modulus) ∧
      Along condition rest (command.keep numbers (command.mean numbers))

end Command

variable {l : LimbT}

/-! ### Keeping step -/

/-- A normalised integer and its number. -/
def Represents (l : LimbT) (a : Ubint) (n : ℕ) : Prop := Normalised l a ∧ number l a = n

def Outcome.Represents (l : LimbT) : Outcome Ubint → Outcome ℕ → Prop
  | .number a, .number n => Ubint.Represents l a n
  | .order s, .order t => s = t
  | _, _ => False

theorem represents_stored {n : ℕ} (fits : n.size < 2 ^ 32) : Represents l (stored l n) n :=
  ⟨stored_normalised fits, number_stored l n⟩

theorem Represents.eq_stored {a : Ubint} {n : ℕ} (same : Represents l a n) : a = stored l n ∧ n.size < 2 ^ 32 := by
  obtain ⟨normalised, rfl⟩ := same
  exact ⟨normalised.eq_stored, normalised.fits⟩

theorem Op.run_represents {op : Op} {a b modulus : Ubint} {x y m : ℕ} (left : Ubint.Represents l a x)
    (right : Ubint.Represents l b y) (below : Ubint.Represents l modulus m) (proper : op.Proper m) (fits : op.Fits x y m) :
    ∃ outcome, op.run l a b modulus = .ok outcome ∧ outcome.Represents l (op.mean x y m) := by
  obtain ⟨rfl, fitsX⟩ := left.eq_stored
  obtain ⟨rfl, fitsY⟩ := right.eq_stored
  obtain ⟨rfl, fitsM⟩ := below.eq_stored
  have returns : ∀ {n : ℕ} {result : Ubint}, n.size < 2 ^ 32 → result = stored l n →
      (Outcome.number result).Represents l (.number n) := by
    intro n result fits same
    rw [same]
    exact represents_stored fits
  have positive : 2 ≤ m → m ≠ 0 := by omega
  have residue : 2 ≤ m → ∀ n, (n % m).size < 2 ^ 32 := by
    intro large n
    exact fits_of_le (Nat.mod_lt n (by omega)).le fitsM
  cases op with
  | add => exact ⟨_, rfl, returns fits (add_stored fitsX fitsY)⟩
  | addEq => exact ⟨_, rfl, returns fits (add_stored fitsX fitsY)⟩
  | sub =>
    refine ⟨.number (stored l (x - y)), ?_, returns (fits_of_le (Nat.sub_le x y) fitsX) rfl⟩
    rw [run, sub_stored fitsX fitsY]
    rfl
  | subEq =>
    refine ⟨.number (stored l (x - y)), ?_, returns (fits_of_le (Nat.sub_le x y) fitsX) rfl⟩
    rw [run, subEq_stored fitsX fitsY]
    rfl
  | mul => exact ⟨_, rfl, returns fits (mul_stored fitsX fitsY fits)⟩
  | exp p => exact ⟨_, rfl, returns fits (exp_stored fitsX p fits)⟩
  | lShift shift => exact ⟨_, rfl, returns fits (lShift_stored fitsX shift)⟩
  | lShiftEq shift => exact ⟨_, rfl, returns fits (lShiftEq_stored fitsX shift)⟩
  | rShift shift =>
    refine ⟨.number (stored l (x >>> shift)), ?_, returns (fits_of_le (Nat.shiftRight_le x shift) fitsX) rfl⟩
    rw [run, rShift_stored fitsX]
    rfl
  | rShiftEq shift =>
    refine ⟨.number (stored l (x >>> shift)), ?_, returns (fits_of_le (Nat.shiftRight_le x shift) fitsX) rfl⟩
    rw [run, rShiftEq_stored fitsX]
    rfl
  | modAdd =>
    refine ⟨.number (stored l ((x + y) % m)), ?_, returns (residue proper _) rfl⟩
    rw [run, modAdd_stored fitsM (positive proper) fitsX fitsY fits]
    rfl
  | modSub =>
    have lt : (((x : ℤ) - y) % m).toNat ≤ m := by
      have := Int.emod_lt_of_pos ((x : ℤ) - y) (b := m) (by have : 2 ≤ m := proper; omega)
      omega
    refine ⟨.number (stored l (((x : ℤ) - y) % m).toNat), ?_, returns (fits_of_le lt fitsM) rfl⟩
    rw [run, modSub_stored fitsM (positive proper) fitsX fitsY fits]
    rfl
  | modMul =>
    refine ⟨.number (stored l (x * y % m)), ?_, returns (residue proper _) rfl⟩
    rw [run, modMul_stored fitsM (positive proper) fitsX fitsY fits]
    rfl
  | compare =>
    refine ⟨.order (order x y), ?_, rfl⟩
    rw [run, compare_stored fitsX fitsY]
    rfl

theorem Command.keep_represents {command : Command} {registers : ℕ → Ubint} {numbers : ℕ → ℕ} {outcome : Outcome Ubint}
    {meant : Outcome ℕ} (same : ∀ r, Ubint.Represents l (registers r) (numbers r)) (result : outcome.Represents l meant) (r : ℕ) :
    Ubint.Represents l (command.keep registers outcome r) (command.keep numbers meant r) := by
  cases outcome with
  | number x =>
    cases meant with
    | number n =>
      by_cases target : r = command.target
      · rw [target, keep, keep, Function.update_self, Function.update_self]
        exact result
      · rw [keep, keep, Function.update_of_ne target, Function.update_of_ne target]
        exact same r
    | order _ => exact result.elim
  | order s =>
    cases meant with
    | number _ => exact result.elim
    | order _ => exact same r

theorem Command.step_represents {command : Command} {registers : ℕ → Ubint} {numbers : ℕ → ℕ}
    (same : ∀ r, Ubint.Represents l (registers r) (numbers r))
    (proper : command.op.Proper (numbers command.modulus))
    (fits : command.op.Fits (numbers command.a) (numbers command.b) (numbers command.modulus)) :
    ∃ next outcome, command.step l registers = .ok (next, outcome) ∧ outcome.Represents l (command.mean numbers) ∧
      ∀ r, Ubint.Represents l (next r) (command.keep numbers (command.mean numbers) r) := by
  obtain ⟨outcome, ran, result⟩ := Op.run_represents (same command.a) (same command.b) (same command.modulus) proper fits
  refine ⟨command.keep registers outcome, outcome, ?_, result, keep_represents same result⟩
  rw [step, ran]
  rfl

theorem Command.run_represents (commands : List Command) {registers : ℕ → Ubint} {numbers : ℕ → ℕ}
    (same : ∀ r, Ubint.Represents l (registers r) (numbers r))
    (proper : Along (fun op _ _ m => op.Proper m) commands numbers)
    (fits : Along (fun op a b m => op.Fits a b m) commands numbers) :
    ∃ final outcomes, run l commands registers = .ok (final, outcomes) ∧
      List.Forall₂ (Outcome.Represents l) outcomes (meanRun commands numbers).2 ∧
      ∀ r, Ubint.Represents l (final r) ((meanRun commands numbers).1 r) := by
  induction commands generalizing registers numbers with
  | nil => exact ⟨registers, [], rfl, .nil, same⟩
  | cons command rest ih =>
    obtain ⟨next, outcome, once, result, kept⟩ := step_represents same proper.1 fits.1
    obtain ⟨final, outcomes, later, results, last⟩ := ih kept proper.2 fits.2
    refine ⟨final, outcome :: outcomes, ?_, .cons result results, last⟩
    rw [run, once]
    dsimp only [bind, Except.bind]
    rw [later]
    rfl

/-- Every run of proper commands that fit returns the numbers that the commands mean, all of them normalised. -/
theorem runs_return_numbers (l : LimbT) (commands : List Command) (registers : ℕ → Ubint)
    (normalised : ∀ r, Normalised l (registers r))
    (proper : Command.Along (fun op _ _ m => op.Proper m) commands fun r => number l (registers r))
    (fits : Command.Along (fun op a b m => op.Fits a b m) commands fun r => number l (registers r)) :
    ∃ final outcomes, Command.run l commands registers = .ok (final, outcomes) ∧
      List.Forall₂ (Outcome.Represents l) outcomes (Command.meanRun commands fun r => number l (registers r)).2 ∧
      ∀ r, Represents l (final r) ((Command.meanRun commands fun r => number l (registers r)).1 r) :=
  Command.run_represents commands (fun r => ⟨normalised r, rfl⟩) proper fits

/-- Two full limbs and the number `2 ^ 32 + 1`: the sum carries into a third limb, the difference borrows from it, and the last
command compares it with the second operand. -/
theorem limbs_return_numbers : ∃ final outcomes,
    Command.run .uint32 [⟨.add, 0, 1, 0, 2⟩, ⟨.sub, 2, 0, 0, 3⟩, ⟨.mul, 3, 0, 0, 4⟩, ⟨.compare, 3, 1, 0, 0⟩]
        (fun r => if r = 0 then stored .uint32 (2 ^ 64 - 1) else stored .uint32 (2 ^ 32 + 1)) = .ok (final, outcomes) ∧
      List.Forall₂ (Outcome.Represents .uint32) outcomes
        [.number (2 ^ 64 + 2 ^ 32), .number (2 ^ 32 + 1), .number ((2 ^ 32 + 1) * (2 ^ 64 - 1)), .order 0] ∧
      Represents .uint32 (final 2) (2 ^ 64 + 2 ^ 32) ∧ Represents .uint32 (final 3) (2 ^ 32 + 1) := by
  have small : ∀ {n : ℕ}, n < 2 ^ 100 → n.size < 2 ^ 32 := fun lt => (Nat.size_le.mpr lt).trans_lt (by norm_num)
  have numbers : (fun r => number .uint32 (if r = 0 then stored .uint32 (2 ^ 64 - 1) else stored .uint32 (2 ^ 32 + 1))) =
      fun r => if r = 0 then 2 ^ 64 - 1 else 2 ^ 32 + 1 := by
    funext r
    split <;> exact number_stored .uint32 _
  obtain ⟨final, outcomes, run, results, registers⟩ := runs_return_numbers .uint32
    [⟨.add, 0, 1, 0, 2⟩, ⟨.sub, 2, 0, 0, 3⟩, ⟨.mul, 3, 0, 0, 4⟩, ⟨.compare, 3, 1, 0, 0⟩]
    (fun r => if r = 0 then stored .uint32 (2 ^ 64 - 1) else stored .uint32 (2 ^ 32 + 1)) (fun r => by
      split <;> exact stored_normalised (small (by norm_num))) ⟨trivial, trivial, trivial, trivial, trivial⟩
    (numbers ▸ ⟨small (by decide), trivial, small (by decide), trivial, trivial⟩)
  rw [numbers] at results registers
  exact ⟨final, outcomes, run, results, registers 2, registers 3⟩

/-! ### Where the position of the top bit wraps -/

/-- A shift by one of a number of `2 ^ 32 - 1` bits. -/
theorem shift_wraps {e : ℕ} (top : e + 2 = 2 ^ 32) :
    lShift l (stored l (2 ^ e)) 1 = stored l (2 ^ (e + 1)) ∧ (lShift l (stored l (2 ^ e)) 1).MSB = 0 := by
  have fits : (2 ^ e).size < 2 ^ 32 := by
    rw [Nat.size_pow]
    omega
  have shifted : lShift l (stored l (2 ^ e)) 1 = stored l (2 ^ (e + 1)) := by
    rw [lShift_stored fits, Nat.shiftLeft_eq, pow_one, pow_succ]
  refine ⟨shifted, ?_⟩
  rw [shifted, stored, Nat.size_pow, top]
  exact Nat.mod_self _

/-- Two to the power `2 ^ 32 - 2` is shifted up by one, and then `Compare` finds it less than one. -/
theorem shifted_below_one : ∃ e, e + 2 = 2 ^ 32 ∧ ∃ registers : ℕ → Ubint, (∀ r, Normalised .uint64 (registers r)) ∧
    number .uint64 (registers 0) = 2 ^ e ∧ number .uint64 (registers 1) = 1 ∧
    ∃ final, Command.run .uint64 [⟨.lShift 1, 0, 0, 0, 2⟩, ⟨.compare, 2, 1, 0, 0⟩] registers =
        .ok (final, [.number (final 2), .order (-1)]) ∧
      number .uint64 (final 2) = 2 ^ e * 2 ∧ 1 < 2 ^ e * 2 ∧ ¬ Normalised .uint64 (final 2) := by
  obtain ⟨e, top⟩ : ∃ e, e + 2 = 2 ^ 32 := ⟨2 ^ 32 - 2, by norm_num⟩
  have fits : (2 ^ e).size < 2 ^ 32 := by
    rw [Nat.size_pow]
    omega
  have one : (1 : ℕ).size < 2 ^ 32 := Nat.size_one ▸ by norm_num
  obtain ⟨shifted, msb⟩ := shift_wraps (l := .uint64) top
  have some : 0 < 2 ^ e := by positivity
  obtain ⟨registers, large, others⟩ : ∃ registers : ℕ → Ubint, registers 0 = stored .uint64 (2 ^ e) ∧
      ∀ r ≠ 0, registers r = stored .uint64 1 :=
    ⟨Function.update (fun _ => stored .uint64 1) 0 (stored .uint64 (2 ^ e)), Function.update_self ..,
      fun r other => Function.update_of_ne other ..⟩
  have second := others 1 one_ne_zero
  refine ⟨e, top, registers, ?_, by rw [large, number_stored], by rw [second, number_stored],
    Function.update registers 2 (stored .uint64 (2 ^ (e + 1))), ?_, ?_, by omega, ?_⟩
  · intro r
    by_cases first : r = 0
    · rw [first, large]
      exact stored_normalised fits
    · rw [others r first]
      exact stored_normalised one
  · have less : compare (stored .uint64 (2 ^ (e + 1))) (stored .uint64 1) = .ok (-1) := by
      rw [compare, ← shifted, msb, stored_msb one, Nat.size_one, if_pos one_pos]
    simp [Command.run, Command.step, Op.run, Command.keep, Command.target, Op.inPlace, large, second, shifted, less, bind, Except.bind,
      pure, Except.pure, Functor.map, Except.map]
  · rw [Function.update_self, number_stored, pow_succ]
  · rw [Function.update_self]
    intro normalised
    have := normalised.msb
    rw [← shifted, msb, shifted, number_stored, Nat.size_pow] at this
    omega

end MultiKeyFHE.Ubint

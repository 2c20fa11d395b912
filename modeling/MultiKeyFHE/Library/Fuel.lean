import Mathlib.Order.Lattice
import Mathlib.Order.Nat

/-!
# Runs with fuel

A loop that may not end is run with fuel, and has no result as long as the fuel does not reach. `Ends` says that some fuel
is enough, `Settles` that no fuel gives anything else. Both go through a sequence of runs, and a loop settles when its
passes settle and a measure goes down.
-/

namespace Fuel
variable {ε α β σ : Type}

/-- A run that may stop with an error, or may not have ended. -/
abbrev Attempt (ε : Type) := ExceptT ε Option

def ended (r : Except ε β) : Attempt ε β := ExceptT.mk (some r)

def exhausted : Attempt ε β := ExceptT.mk none

theorem ended_inj {r t : Except ε β} : ended r = ended t ↔ r = t := Option.some.injEq r t ▸ Iff.rfl

theorem exhausted_ne (r : Except ε β) : (exhausted : Attempt ε β) ≠ ended r := by
  intro same
  cases same

/-- The run ends, with this. -/
def Ends (run : ℕ → Attempt ε β) (r : Except ε β) : Prop := ∃ steps, ∀ fuel ≥ steps, run fuel = ended r

/-- The run ends, with this and with nothing else for less fuel. -/
structure Settles (run : ℕ → Attempt ε β) (r : Except ε β) : Prop where
  ends : Ends run r
  only : ∀ fuel t, run fuel = ended t → t = r

theorem settles_ended (r : Except ε β) : Settles (fun _ => ended r) r := by
  constructor
  · exact ⟨0, fun _ _ => rfl⟩
  · intro _ t same
    exact (ended_inj.mp same).symm

theorem Ends.unique {run : ℕ → Attempt ε β} {r t : Except ε β} (one : Ends run r) (other : Ends run t) : r = t := by
  obtain ⟨i, hi⟩ := one
  obtain ⟨j, hj⟩ := other
  exact ended_inj.mp ((hi _ (le_max_left i j)).symm.trans (hj _ (le_max_right i j)))

theorem Ends.succ {run : ℕ → Attempt ε β} {r : Except ε β} (h : Ends (fun fuel => run (fuel + 1)) r) : Ends run r := by
  obtain ⟨steps, done⟩ := h
  refine ⟨steps + 1, fun fuel enough => ?_⟩
  obtain ⟨fuel, rfl⟩ : ∃ f, fuel = f + 1 := ⟨fuel - 1, by omega⟩
  exact done fuel (by omega)

theorem Settles.succ {run : ℕ → Attempt ε β} {r : Except ε β} (none : ∀ t, run 0 ≠ ended t)
    (h : Settles (fun fuel => run (fuel + 1)) r) : Settles run r := by
  constructor
  · exact h.ends.succ
  · intro fuel t done
    cases fuel with
    | zero => exact absurd done (none t)
    | succ fuel => exact h.only fuel t done

/-! ### Sequences -/

@[simp] theorem ok_bind (a : α) (f : α → Attempt ε β) : ended (.ok a) >>= f = f a := rfl

@[simp] theorem error_bind (e : ε) (f : α → Attempt ε β) : ended (.error e) >>= f = ended (.error e) := rfl

@[simp] theorem lift_eq (x : Except ε α) : (liftM x : Attempt ε α) = ended x := rfl

@[simp] theorem pure_eq (a : α) : (pure a : Attempt ε α) = ended (.ok a) := rfl

theorem bind_ended {x : Attempt ε α} {f : α → Attempt ε β} {t : Except ε β} (h : x >>= f = ended t) :
    (∃ a, x = ended (.ok a) ∧ f a = ended t) ∨ ∃ e, x = ended (.error e) ∧ t = .error e := by
  match x with
  | none => cases h
  | some (.ok a) => exact .inl ⟨a, rfl, h⟩
  | some (.error e) => exact .inr ⟨e, rfl, (ended_inj.mp h).symm⟩

theorem bind_returned {x : Attempt ε α} {f : α → Attempt ε β} {b : β} (h : x >>= f = ended (.ok b)) :
    ∃ a, x = ended (.ok a) ∧ f a = ended (.ok b) := by
  rcases bind_ended h with first | ⟨e, -, failed⟩
  · exact first
  · cases failed

theorem lift_returned {x : Except ε α} {a : α} (h : (liftM x : Attempt ε α) = ended (.ok a)) : x = .ok a := ended_inj.mp h

theorem Ends.bind {run : ℕ → Attempt ε α} {f : ℕ → α → Attempt ε β} {a : α} {r : Except ε β} (first : Ends run (.ok a))
    (rest : Ends (fun fuel => f fuel a) r) : Ends (fun fuel => run fuel >>= f fuel) r := by
  obtain ⟨i, hi⟩ := first
  obtain ⟨j, hj⟩ := rest
  refine ⟨max i j, fun fuel enough => ?_⟩
  have done := hi fuel ((le_max_left i j).trans enough)
  have last := hj fuel ((le_max_right i j).trans enough)
  simp only [done, ok_bind, last]

theorem Settles.bind {run : ℕ → Attempt ε α} {f : ℕ → α → Attempt ε β} {a : α} {r : Except ε β}
    (first : Settles run (.ok a)) (rest : Settles (fun fuel => f fuel a) r) : Settles (fun fuel => run fuel >>= f fuel) r := by
  constructor
  · exact first.ends.bind rest.ends
  · intro fuel t done
    rcases bind_ended done with ⟨b, before, after⟩ | ⟨e, before, -⟩
    · cases first.only fuel _ before
      exact rest.only fuel t after
    · cases first.only fuel _ before

theorem Ends.ok_tryCatch {run : ℕ → Attempt ε β} {a : β} (first : Ends run (.ok a)) (handle : ε → Attempt ε β) :
    Ends (fun fuel => tryCatch (run fuel) handle) (.ok a) := by
  obtain ⟨steps, done⟩ := first
  refine ⟨steps, fun fuel enough => ?_⟩
  dsimp only
  rw [done fuel enough]
  rfl

theorem Ends.error_tryCatch {run : ℕ → Attempt ε β} {e : ε} {handle : ε → Attempt ε β} {r : Except ε β}
    (first : Ends run (.error e)) (handled : handle e = ended r) : Ends (fun fuel => tryCatch (run fuel) handle) r := by
  obtain ⟨steps, done⟩ := first
  refine ⟨steps, fun fuel enough => ?_⟩
  dsimp only
  rw [done fuel enough]
  exact handled

/-! ### Loops -/

/-- A pass leaves the state for the next one, or what the loop returns. -/
def loop (pass : σ → Attempt ε (σ ⊕ β)) : ℕ → σ → Attempt ε β
  | 0, _ => exhausted
  | fuel + 1, s => do
    match ← pass s with
    | .inl t => loop pass fuel t
    | .inr r => return r

/-- What a loop comes to after passes that keep the invariant. -/
theorem loop_ended (pass : σ → Attempt ε (σ ⊕ β)) (Inv : σ → Prop) {P : Except ε β → Prop}
    (keeps : ∀ s t, Inv s → pass s = ended (.ok (.inl t)) → Inv t)
    (returns : ∀ s r, Inv s → pass s = ended (.ok (.inr r)) → P (.ok r))
    (stops : ∀ s e, Inv s → pass s = ended (.error e) → P (.error e))
    {fuel : ℕ} {s : σ} {r : Except ε β} (start : Inv s) (run : loop pass fuel s = ended r) : P r := by
  induction fuel generalizing s with
  | zero => exact absurd run (exhausted_ne r)
  | succ fuel ih =>
    rw [loop] at run
    rcases bind_ended run with ⟨outcome, once, rest⟩ | ⟨e, once, rfl⟩
    · cases outcome with
      | inl t => exact ih (keeps s t start once) rest
      | inr b =>
        obtain rfl := ended_inj.mp rest
        exact returns s b start once
    · exact stops s e start once

/-- The invariant counts down. -/
theorem loop_settles (pass : ℕ → σ → Attempt ε (σ ⊕ β)) (Inv : ℕ → σ → Prop) {r : Except ε β}
    (step : ∀ k s, Inv k s → (∃ t, Settles (fun fuel => pass fuel s) (.ok (.inl t)) ∧ ∃ j < k, Inv j t) ∨
      Settles (fun fuel => pass fuel s) (r.map .inr)) {k : ℕ} {s : σ} (start : Inv k s) :
    Settles (fun fuel => loop (pass fuel) fuel s) r := by
  constructor
  · suffices h : ∃ steps, ∀ fuel ≥ steps, ∀ passes ≥ steps, loop (pass fuel) passes s = ended r by
      obtain ⟨steps, run⟩ := h
      exact ⟨steps, fun fuel enough => run fuel enough fuel enough⟩
    induction k using Nat.strong_induction_on generalizing s with
    | _ k ih =>
      rcases step k s start with ⟨t, ⟨⟨i, once⟩, -⟩, next, less, kept⟩ | ⟨⟨i, once⟩, -⟩
      · obtain ⟨j, rest⟩ := ih next less kept
        refine ⟨max i j + 1, fun fuel enough passes more => ?_⟩
        obtain ⟨passes, rfl⟩ : ∃ p, passes = p + 1 := ⟨passes - 1, by omega⟩
        have now := once fuel (by omega)
        dsimp only at now
        rw [loop, now, ok_bind]
        exact rest fuel (by omega) passes (by omega)
      · refine ⟨i + 1, fun fuel enough passes more => ?_⟩
        obtain ⟨passes, rfl⟩ : ∃ p, passes = p + 1 := ⟨passes - 1, by omega⟩
        have now := once fuel (by omega)
        dsimp only at now
        rw [loop, now]
        cases r <;> rfl
  · intro fuel t run
    apply loop_ended (pass fuel) (fun s => ∃ k, Inv k s) (P := fun t => t = r) ?_ ?_ ?_ ⟨k, start⟩ run
    · rintro s t ⟨k, kept⟩ once
      rcases step k s kept with ⟨t', settled, j, -, next⟩ | settled
      · cases settled.only fuel _ once
        exact ⟨j, next⟩
      · cases r <;> cases settled.only fuel _ once
    · rintro s b ⟨k, kept⟩ once
      rcases step k s kept with ⟨t', settled, -⟩ | settled
      · cases settled.only fuel _ once
      · cases r <;> cases settled.only fuel _ once
        rfl
    · rintro s e ⟨k, kept⟩ once
      rcases step k s kept with ⟨t', settled, -⟩ | settled
      · cases settled.only fuel _ once
      · cases r <;> cases settled.only fuel _ once
        rfl

theorem loop_steps (pass : σ → Attempt ε (σ ⊕ β)) (state : ℕ → σ) {n : ℕ} {r : Except ε β}
    (step : ∀ i < n, pass (state i) = ended (.ok (.inl (state (i + 1))))) (last : pass (state n) = ended (r.map .inr)) :
    Settles (fun fuel => loop pass fuel (state 0)) r := by
  apply loop_settles (fun _ => pass) (fun k s => ∃ i, i + k = n ∧ s = state i) (k := n)
  · exact ⟨0, Nat.zero_add n, rfl⟩
  · rintro k s ⟨i, count, rfl⟩
    rcases Nat.eq_zero_or_pos k with rfl | more
    · rw [Nat.add_zero] at count
      rw [count, last]
      exact .inr (settles_ended _)
    · rw [step i (by omega)]
      exact .inl ⟨_, settles_ended _, k - 1, by omega, i + 1, by omega, rfl⟩

/-! ### More fuel -/

/-- What the first ends with, the second ends with. -/
def Extends (x y : Attempt ε β) : Prop := ∀ r, x = ended r → y = ended r

theorem Extends.refl (x : Attempt ε β) : Extends x x := fun _ done => done

theorem Extends.bind {x y : Attempt ε α} {f g : α → Attempt ε β} (first : Extends x y) (rest : ∀ a, Extends (f a) (g a)) :
    Extends (x >>= f) (y >>= g) := by
  intro r done
  rcases bind_ended done with ⟨a, before, after⟩ | ⟨e, before, rfl⟩
  · rw [first _ before, ok_bind]
    exact rest a r after
  · rw [first _ before, error_bind]

theorem Extends.ite {c : Prop} [Decidable c] {x x' y y' : Attempt ε β} (left : Extends x x') (right : Extends y y') :
    Extends (if c then x else y) (if c then x' else y') := by
  split
  · exact left
  · exact right

theorem loop_extends {pass pass' : σ → Attempt ε (σ ⊕ β)} (each : ∀ s, Extends (pass s) (pass' s)) {n n' : ℕ} (le : n ≤ n')
    (s : σ) : Extends (loop pass n s) (loop pass' n' s) := by
  induction n generalizing s n' with
  | zero =>
    intro r done
    exact absurd done (exhausted_ne r)
  | succ n ih =>
    obtain ⟨n', rfl⟩ : ∃ k, n' = k + 1 := ⟨n' - 1, by omega⟩
    rw [loop, loop]
    apply (each s).bind
    intro outcome
    cases outcome with
    | inl t => exact ih (by omega) t
    | inr b => exact .refl _

end Fuel

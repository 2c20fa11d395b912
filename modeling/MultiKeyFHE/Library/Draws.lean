import Mathlib.Data.Fin.Tuple.Basic
import Mathlib.Logic.Function.Basic
import Mathlib.Logic.Nontrivial.Defs
import Mathlib.Order.Basic

/-!
# Draws of a generator

A generator that is asked for values one after the other is the stream of its answers. A program that uses it
is a `Sampler`: it reads the stream at the position it has reached and moves on. `OwnDraws` says that a family
of values takes each member from a place of its own; it is a statement about all streams, so it cannot be
seen in one run.
-/

namespace Draws

abbrev Sampler (α : Type) := ReaderT (ℕ → α) (StateM ℕ)

namespace Sampler
variable {α β γ : Type}

def draw : Sampler α α := fun stream position => (stream position, position + 1)

/-- The fill constructor of a container: its argument is evaluated once and copied. -/
def fill (count : ℕ) (value : Sampler α β) : Sampler α (Fin count → β) := do
  let x ← value
  return fun _ => x

/-- A loop that runs its body once for each index and collects the results. -/
def forEach : (count : ℕ) → (Fin count → Sampler α β) → Sampler α (Fin count → β)
  | 0, _ => pure fun i => i.elim0
  | count + 1, body => do
    let done ← forEach count fun i => body i.castSucc
    let last ← body (Fin.last count)
    return Fin.snoc done last

/-- What a program leaves when it is run from the first position. -/
def value (program : Sampler α β) (stream : ℕ → α) : β := (program stream 0).1

/-- A program that asks `count` times, wherever it starts. -/
def Asks (program : Sampler α β) (count : ℕ) : Prop := ∀ stream position, (program stream position).2 = position + count

theorem draw_asks : Asks (draw : Sampler α α) 1 := fun _ _ => rfl

theorem Asks.map {program : Sampler α β} {count : ℕ} (asks : Asks program count) (f : β → γ) :
    Asks (f <$> program) count := fun stream position => asks stream position

theorem forEach_run {count each : ℕ} {body : Fin count → Sampler α β} (asks : ∀ i, Asks (body i) each)
    (stream : ℕ → α) (position : ℕ) :
    forEach count body stream position =
      (fun i => (body i stream (position + i * each)).1, position + count * each) := by
  induction count with
  | zero =>
    rw [forEach, Nat.zero_mul, Nat.add_zero]
    exact Prod.ext (funext fun i => i.elim0) rfl
  | succ count ih =>
    have done := ih fun i => asks i.castSucc
    have last := asks (Fin.last count) stream (position + count * each)
    have run : forEach (count + 1) body stream position =
        (Fin.snoc (forEach count (fun i => body i.castSucc) stream position).1
          (body (Fin.last count) stream (forEach count (fun i => body i.castSucc) stream position).2).1,
        (body (Fin.last count) stream (forEach count (fun i => body i.castSucc) stream position).2).2) := rfl
    rw [run, done]
    refine Prod.ext (funext fun i => ?_) ?_
    · induction i using Fin.lastCases with
      | last => simp
      | cast i => simp
    · rw [last, Nat.succ_mul, Nat.add_assoc]

theorem Asks.forEach {count each : ℕ} {body : Fin count → Sampler α β} (asks : ∀ i, Asks (body i) each) :
    Asks (Sampler.forEach count body) (count * each) := fun stream position => by rw [forEach_run asks]

theorem forEach_value {count each : ℕ} {body : Fin count → Sampler α β} (asks : ∀ i, Asks (body i) each)
    (stream : ℕ → α) (i : Fin count) : value (forEach count body) stream i = (body i stream (i * each)).1 := by
  simp only [value, forEach_run asks, Nat.zero_add]

/-- A loop that runs its body until the test of what it leaves succeeds. -/
def retry (round : β → Sampler α β) (test : β → Option γ) : ℕ → β → Sampler α (Option (β × γ))
  | 0, _ => return none
  | fuel + 1, state => do
    let state ← round state
    match test state with
    | some found => return some (state, found)
    | none => retry round test fuel state

/-- What a loop stops with was left by its last round, which began after the rounds that failed. -/
theorem retry_some {round : β → Sampler α β} {test : β → Option γ} {Inv : β → Prop} {each : ℕ}
    (asks : ∀ state, Asks (round state) each) (keeps : ∀ state stream position, Inv state → Inv (round state stream position).1)
    {fuel : ℕ} {state : β} {stream : ℕ → α} {position : ℕ} (initial : Inv state) {last : β} {found : γ}
    (stops : (retry round test fuel state stream position).1 = some (last, found)) :
    test last = some found ∧ ∃ before failed, Inv before ∧ last = (round before stream (position + failed * each)).1 := by
  induction fuel generalizing state position with
  | zero => cases stops
  | succ fuel ih =>
    have run : retry round test (fuel + 1) state stream position =
        (match test (round state stream position).1 with
        | some found => (pure (some ((round state stream position).1, found)) : Sampler α _)
        | none => retry round test fuel (round state stream position).1) stream (round state stream position).2 := rfl
    rw [run, asks] at stops
    cases tested : test (round state stream position).1 with
    | some x =>
      rw [tested] at stops
      obtain ⟨rfl, rfl⟩ := Prod.mk.inj (Option.some.inj stops)
      exact ⟨tested, state, 0, initial, by rw [Nat.zero_mul, Nat.add_zero]⟩
    | none =>
      rw [tested] at stops
      obtain ⟨success, before, failed, kept, same⟩ := ih (keeps _ _ _ initial) stops
      refine ⟨success, before, failed + 1, kept, ?_⟩
      rw [same, Nat.succ_mul, Nat.add_comm (failed * each), Nat.add_assoc]

end Sampler

/-- Each member of the family is a draw, and two members are two draws. -/
def OwnDraws {α ι : Type} (values : (ℕ → α) → ι → α) : Prop :=
  ∃ d : ι → ℕ, Function.Injective d ∧ ∀ stream i, values stream i = stream (d i)

section OwnDraws
variable {α ι : Type} {values : (ℕ → α) → ι → α} {position : ι → ℕ}

theorem exists_stream_ne [Nontrivial α] {i j : ℕ} (differ : i ≠ j) : ∃ stream : ℕ → α, stream i ≠ stream j := by
  obtain ⟨a, b, ne⟩ := exists_pair_ne α
  refine ⟨Function.update (fun _ => b) i a, ?_⟩
  rwa [Function.update_self, Function.update_of_ne differ.symm]

theorem ownDraws_iff [Nontrivial α] (read : ∀ stream i, values stream i = stream (position i)) :
    OwnDraws values ↔ Function.Injective position := by
  constructor
  · rintro ⟨d, inj, drawn⟩
    -- No other place of the stream answers as `position i` does for every stream.
    have same : d = position := by
      funext i
      by_contra differ
      obtain ⟨stream, ne⟩ := exists_stream_ne (α := α) differ
      exact ne ((drawn stream i).symm.trans (read stream i))
    exact same ▸ inj
  · intro inj
    exact ⟨position, inj, read⟩

end OwnDraws
end Draws

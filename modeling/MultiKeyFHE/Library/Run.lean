import Mathlib.Data.List.ProdSigma
import Mathlib.Data.List.FinRange
import Mathlib.Algebra.BigOperators.Fin
import Mathlib.Algebra.BigOperators.Group.List.Basic
import Mathlib.Data.Int.ModEq

/-!
# Loops that can fail

A loop over a list is `foldlM` in `Except`. `foldlM_ok` is its invariant rule: the invariant speaks
about the prefix that is done, and a step sees where in the list it stands. `gridIndices` is the order of
two nested loops. `foldl_modEq` is the rule for a loop that only adds, modulo a number.
-/

namespace Run
universe u
variable {ε α : Type*} {σ τ : Type u}

theorem bind_ok {x : Except ε σ} {f : σ → Except ε τ} {b : τ} (h : (x >>= f) = .ok b) :
    ∃ a, x = .ok a ∧ f a = .ok b := by
  cases x with
  | error e => cases h
  | ok a => exact ⟨a, rfl, h⟩

theorem bind_error {x : Except ε σ} {f : σ → Except ε τ} {e : ε} (h : (x >>= f) = .error e) :
    x = .error e ∨ ∃ a, x = .ok a ∧ f a = .error e := by
  cases x with
  | error e' =>
    cases h
    exact .inl rfl
  | ok a => exact .inr ⟨a, rfl, h⟩

theorem ite_ok {c : Prop} [Decidable c] {x y : Except ε σ} {a : σ} (h : (if c then x else y) = .ok a) (stops : x ≠ .ok a) :
    ¬ c ∧ y = .ok a := by
  split at h
  · exact absurd h stops
  · exact ⟨‹_›, h⟩

theorem foldlM_concat_ok {f : σ → α → Except ε σ} {l : List α} {x : α} {s t : σ}
    (h : (l ++ [x]).foldlM f s = .ok t) : ∃ u, l.foldlM f s = .ok u ∧ f u x = .ok t := by
  rw [List.foldlM_append] at h
  obtain ⟨u, run, last⟩ := bind_ok h
  rw [List.foldlM_cons] at last
  obtain ⟨v, step, last⟩ := bind_ok last
  cases last
  exact ⟨u, run, step⟩

theorem foldlM_append_ok {f : σ → α → Except ε σ} {l l' : List α} {s t u : σ} (first : l.foldlM f s = .ok t)
    (second : l'.foldlM f t = .ok u) : (l ++ l').foldlM f s = .ok u := by
  rw [List.foldlM_append, first]
  exact second

theorem foldlM_cons_ok {f : σ → α → Except ε σ} {x : α} {l : List α} {s t u : σ} (first : f s x = .ok t)
    (rest : l.foldlM f t = .ok u) : (x :: l).foldlM f s = .ok u := by
  rw [List.foldlM_cons, first]
  exact rest

/-- The invariant rule for a loop that got through. -/
theorem foldlM_inv {f : σ → α → Except ε σ} (P : List α → σ → Prop) {l : List α} {s t : σ}
    (h : l.foldlM f s = .ok t) (start : P [] s)
    (step : ∀ done x s s', x ∈ l → P done s → f s x = .ok s' → P (done ++ [x]) s') : P l t := by
  induction l using List.reverseRecOn generalizing t with
  | nil =>
    cases h
    exact start
  | append_singleton done x ih =>
    obtain ⟨u, run, last⟩ := foldlM_concat_ok h
    refine step done x u t (by simp) (ih run ?_) last
    intro before y s s' member
    exact step before y s s' (List.mem_append_left _ member)

theorem foldlM_ok {f : σ → α → Except ε σ} (P : List α → σ → Prop) {l : List α} {s : σ} (start : P [] s)
    (step : ∀ done x rest s, done ++ x :: rest = l → P done s → ∃ t, f s x = .ok t ∧ P (done ++ [x]) t) :
    ∃ t, l.foldlM f s = .ok t ∧ P l t := by
  suffices h : ∀ rest done s, done ++ rest = l → P done s → ∃ t, rest.foldlM f s = .ok t ∧ P l t from
    h l [] s rfl start
  intro rest
  induction rest with
  | nil =>
    intro done s same now
    rw [List.append_nil] at same
    exact ⟨s, rfl, same ▸ now⟩
  | cons x rest ih =>
    intro done s same now
    obtain ⟨t, once, next⟩ := step done x rest s same now
    obtain ⟨u, run, last⟩ := ih (done ++ [x]) t (by simpa using same) next
    refine ⟨u, ?_, last⟩
    rw [List.foldlM_cons, once]
    exact run

/-- What is known of the value that a computation returns, and of the fault that stops it. -/
def Ends (x : Except ε σ) (Q : σ → Prop) (E : ε → Prop) : Prop := (∃ a, x = .ok a ∧ Q a) ∨ ∃ e, x = .error e ∧ E e

theorem Ends.ok {a : σ} {Q : σ → Prop} {E : ε → Prop} (h : Q a) : Ends (.ok a) Q E := .inl ⟨a, rfl, h⟩

theorem Ends.bind {x : Except ε σ} {f : σ → Except ε τ} {Q : σ → Prop} {Q' : τ → Prop} {E : ε → Prop} (first : Ends x Q E)
    (rest : ∀ a, Q a → Ends (f a) Q' E) : Ends (x >>= f) Q' E := by
  obtain ⟨a, rfl, h⟩ | ⟨e, rfl, h⟩ := first
  · exact rest a h
  · exact .inr ⟨e, rfl, h⟩

theorem Ends.mono {x : Except ε σ} {Q Q' : σ → Prop} {E : ε → Prop} (ends : Ends x Q E) (weaker : ∀ a, Q a → Q' a) :
    Ends x Q' E := by
  obtain ⟨a, run, h⟩ | stopped := ends
  · exact .inl ⟨a, run, weaker a h⟩
  · exact .inr stopped

theorem Ends.result {x : Except ε σ} {Q : σ → Prop} {E : ε → Prop} (ends : Ends x Q E) :
    Ends x (fun a => Q a ∧ x = .ok a) E := by
  obtain ⟨a, run, h⟩ | stopped := ends
  · exact .inl ⟨a, run, h, run⟩
  · exact .inr stopped

theorem Ends.returns {x : Except ε σ} {Q : σ → Prop} (ends : Ends x Q fun _ => False) : ∃ a, x = .ok a ∧ Q a := by
  obtain returned | ⟨_, _, h⟩ := ends
  · exact returned
  · exact h.elim

theorem foldlM_ends {f : σ → α → Except ε σ} (P : List α → σ → Prop) {E : ε → Prop} {l : List α} {s : σ} (start : P [] s)
    (step : ∀ done x s, x ∈ l → P done s → Ends (f s x) (P (done ++ [x])) E) : Ends (l.foldlM f s) (P l) E := by
  induction l using List.reverseRecOn with
  | nil => exact Ends.ok start
  | append_singleton done x ih =>
    rw [List.foldlM_append]
    refine (ih fun before y s member => step before y s (List.mem_append_left _ member)).bind fun u now => ?_
    rw [List.foldlM_cons]
    exact (step done x u (by simp) now).bind fun _ next => Ends.ok next

theorem foldlM_range_ends {f : σ → ℕ → Except ε σ} (P : ℕ → σ → Prop) {E : ε → Prop} {n : ℕ} {s : σ} (start : P 0 s)
    (step : ∀ i < n, ∀ s, P i s → Ends (f s i) (P (i + 1)) E) : Ends ((List.range n).foldlM f s) (P n) E := by
  induction n with
  | zero => exact Ends.ok start
  | succ n ih =>
    rw [List.range_succ, List.foldlM_append]
    refine (ih fun i hi => step i (by omega)).bind fun u now => ?_
    rw [List.foldlM_cons]
    exact (step n (by omega) u now).bind fun _ next => Ends.ok next

/-- Every run over a prefix ends where it began, exactly when every step does. -/
theorem foldlM_fixed_iff {f : σ → α → Except ε σ} {l : List α} {s : σ} :
    (∀ done, done <+: l → done.foldlM f s = .ok s) ↔ ∀ x ∈ l, f s x = .ok s := by
  constructor
  · intro fixed x member
    obtain ⟨done, rest, rfl⟩ := List.append_of_mem member
    obtain ⟨u, run, step⟩ := foldlM_concat_ok (fixed (done ++ [x]) ⟨rest, by simp⟩)
    rw [fixed done (List.prefix_append ..)] at run
    exact Except.ok.inj run ▸ step
  · intro fixed done front
    obtain ⟨t, run, rfl⟩ := foldlM_ok (f := f) (l := done) (s := s) (fun _ t => t = s) rfl
      fun before x after t split now => ⟨s, now ▸ fixed x (front.subset (split ▸ by simp)), rfl⟩
    exact run

theorem mapM_ok {f : α → Except ε τ} (P : α → τ → Prop) {l : List α} (step : ∀ x ∈ l, ∃ y, f x = .ok y ∧ P x y) :
    ∃ ys, l.mapM f = .ok ys ∧ List.Forall₂ P l ys := by
  induction l with
  | nil => exact ⟨[], rfl, .nil⟩
  | cons x rest ih =>
    obtain ⟨y, once, holds⟩ := step x (by simp)
    obtain ⟨ys, run, all⟩ := ih fun x member => step x (List.mem_cons_of_mem _ member)
    refine ⟨y :: ys, ?_, .cons holds all⟩
    rw [List.mapM_cons, once, run]
    rfl

theorem mapM_eq_map {f : α → Except ε τ} {g : α → τ} {l : List α} (step : ∀ x ∈ l, f x = .ok (g x)) :
    l.mapM f = .ok (l.map g) := by
  induction l with
  | nil => rfl
  | cons x rest ih =>
    rw [List.mapM_cons, step x (by simp), ih fun x member => step x (List.mem_cons_of_mem _ member)]
    rfl

/-- A loop stops with nothing but the errors of its steps. -/
theorem foldlM_error {f : σ → α → Except ε σ} {P : ε → Prop} (step : ∀ s x e, f s x = .error e → P e) {l : List α} {s : σ}
    {e : ε} (h : l.foldlM f s = .error e) : P e := by
  induction l generalizing s with
  | nil => cases h
  | cons x rest ih =>
    rw [List.foldlM_cons] at h
    rcases bind_error h with now | ⟨t, _, later⟩
    · exact step s x e now
    · exact ih later

theorem mapM_error {f : α → Except ε τ} {P : ε → Prop} (step : ∀ x e, f x = .error e → P e) {l : List α} {e : ε}
    (h : l.mapM f = .error e) : P e := by
  induction l with
  | nil => cases h
  | cons x rest ih =>
    rw [List.mapM_cons] at h
    rcases bind_error h with now | ⟨y, _, later⟩
    · exact step x e now
    · rcases bind_error later with later | ⟨ys, _, ended⟩
      · exact ih later
      · cases ended

/-- A loop whose steps never stop it runs as the loop of the functions they compute. -/
theorem foldlM_hom {ι : Type*} {f : σ → α → Except ε σ} {g : ι → α → ι} (state : ι → σ) {l : List α}
    (step : ∀ c, ∀ x ∈ l, f (state c) x = .ok (state (g c x))) (c : ι) :
    l.foldlM f (state c) = .ok (state (l.foldl g c)) := by
  induction l generalizing c with
  | nil => rfl
  | cons x rest ih =>
    exact foldlM_cons_ok (step c x (by simp)) (ih (fun c y member => step c y (List.mem_cons_of_mem _ member)) _)

/-- Every step keeps `P` and moves `value` by the step's own term. -/
theorem foldl_modEq {ι κ : Type*} {step : ι → κ → ι} (P : ι → Prop) (value : ι → ℤ) (term : κ → ℤ) {q : ℤ}
    (once : ∀ s x, P s → P (step s x) ∧ value (step s x) ≡ value s + term x [ZMOD q]) (l : List κ) {s : ι}
    (start : P s) :
    P (l.foldl step s) ∧ value (l.foldl step s) ≡ value s + (l.map term).sum [ZMOD q] := by
  induction l generalizing s with
  | nil =>
    rw [List.map_nil, List.sum_nil, add_zero]
    exact ⟨start, Int.ModEq.refl _⟩
  | cons x rest ih =>
    obtain ⟨next, moved⟩ := once s x start
    obtain ⟨last, later⟩ := ih next
    rw [List.foldl_cons, List.map_cons, List.sum_cons, ← add_assoc]
    exact ⟨last, later.trans (moved.add_right _)⟩

/-- Every step of a loop finds what it needs. -/
def EveryStep {ι κ : Type*} (step : ι → κ → ι) (needs : ι → κ → Prop) : ι → List κ → Prop
  | _, [] => True
  | s, x :: rest => needs s x ∧ EveryStep step needs (step s x) rest

theorem everyStep_add_iff {κ : Type*} {M : ℕ} (f : κ → ℕ) (l : List κ) {s : ℕ} (start : s < M) :
    EveryStep (fun s x => (s + f x) % M) (fun s x => s + f x < M) s l ↔ s + (l.map f).sum < M := by
  induction l generalizing s with
  | nil => simp [EveryStep, start]
  | cons x rest ih =>
    rw [EveryStep, ih (Nat.mod_lt _ (by omega)), List.map_cons, List.sum_cons, ← add_assoc]
    constructor
    · rintro ⟨fits, all⟩
      rwa [Nat.mod_eq_of_lt fits] at all
    · intro all
      have fits : s + f x < M := by omega
      rw [Nat.mod_eq_of_lt fits]
      exact ⟨fits, all⟩

theorem everyStep_congr {ι κ : Type*} {step step' : ι → κ → ι} {needs needs' : ι → κ → Prop} (P : ι → Prop)
    (once : ∀ s x, P s → P (step s x) ∧ step s x = step' s x ∧ (needs s x ↔ needs' s x)) (l : List κ) {s : ι} (start : P s) :
    EveryStep step needs s l ↔ EveryStep step' needs' s l := by
  induction l generalizing s with
  | nil => exact Iff.rfl
  | cons x rest ih =>
    obtain ⟨next, same, found⟩ := once s x start
    rw [EveryStep, EveryStep, found, ih next, same]

theorem sum_product {ι κ : Type*} (l : List ι) (l' : List κ) (f : ι → κ → ℤ) :
    ((l ×ˢ l').map fun x => f x.1 x.2).sum = (l.map fun i => (l'.map (f i)).sum).sum := by
  induction l with
  | nil => rfl
  | cons i rest ih =>
    rw [List.product_cons, List.map_append, List.sum_append, ih, List.map_cons, List.sum_cons, List.map_map]
    rfl

theorem foldl_product {ι κ σ : Type*} (l : List ι) (l' : List κ) (f : σ → ι × κ → σ) (s : σ) :
    (l ×ˢ l').foldl f s = l.foldl (fun s i => l'.foldl (fun s j => f s (i, j)) s) s := by
  induction l generalizing s with
  | nil => rfl
  | cons i rest ih => rw [List.product_cons, List.foldl_append, List.foldl_map, ih, List.foldl_cons]

theorem foldl_update_apply {ι κ β : Type*} [DecidableEq κ] {f : ι → κ} (inj : Function.Injective f) (g : ι → β)
    (l : List ι) (start : κ → β) {i : ι} (mem : i ∈ l) :
    l.foldl (fun v i => Function.update v (f i) (g i)) start (f i) = g i := by
  induction l using List.reverseRecOn with
  | nil => cases mem
  | append_singleton rest x ih =>
    rw [List.foldl_append, List.foldl_cons, List.foldl_nil]
    by_cases same : i = x
    · rw [same, Function.update_self]
    · rw [Function.update_of_ne fun h => same (inj h)]
      refine ih ((List.mem_append.mp mem).resolve_right ?_)
      simpa using same

def gridIndices (k n : ℕ) : List (Fin k × Fin n) := List.finRange k ×ˢ List.finRange n

theorem gridIndices_nodup (k n : ℕ) : (gridIndices k n).Nodup :=
  (List.nodup_finRange k).product (List.nodup_finRange n)

theorem gridIndices_length (k n : ℕ) : (gridIndices k n).length = k * n := by
  simp [gridIndices, List.length_product]

theorem gridIndices_head (k n : ℕ) [NeZero k] [NeZero n] : (gridIndices k n).head? = some (0, 0) := by
  obtain ⟨k, rfl⟩ := Nat.exists_eq_succ_of_ne_zero (NeZero.ne k)
  obtain ⟨n, rfl⟩ := Nat.exists_eq_succ_of_ne_zero (NeZero.ne n)
  rw [gridIndices, List.finRange_succ, List.finRange_succ]
  rfl

theorem gridIndices_corner {k n : ℕ} [NeZero k] [NeZero n] {done rest : List (Fin k × Fin n)}
    {x : Fin k × Fin n} (split : done ++ x :: rest = gridIndices k n) : x = (0, 0) ↔ done = [] := by
  have head := gridIndices_head k n
  have nodup := gridIndices_nodup k n
  rw [← split] at head nodup
  cases done with
  | nil =>
    simp only [List.nil_append, List.head?_cons, Option.some.injEq] at head
    exact ⟨fun _ => rfl, fun _ => head⟩
  | cons first done =>
    simp only [List.cons_append, List.head?_cons, Option.some.injEq] at head
    rw [List.cons_append, List.nodup_cons] at nodup
    refine ⟨fun same => absurd ?_ nodup.1, fun h => by cases h⟩
    rw [head, ← same]
    simp

theorem sum_gridIndices {M : Type*} [AddCommMonoid M] (k n : ℕ) (g : Fin k → Fin n → M) :
    ((gridIndices k n).map fun x => g x.1 x.2).sum = ∑ u, ∑ i, g u i := by
  rw [Fin.sum_univ_def, gridIndices]
  induction List.finRange k with
  | nil => simp
  | cons u rest ih =>
    rw [List.product_cons, List.map_append, List.sum_append, ih, List.map_cons, List.sum_cons, List.map_map,
      Fin.sum_univ_def]
    rfl

end Run

import Mathlib.Tactic
import SignerHost.Reader

/-!
# Steps with a state

Readers, conversations and operations of the host are steps that end in a value or a failure and
leave a state in either case.  The lemmas here run a step that is put together from others.

* A step is run with `EStateM.run`; the laws of the library run `pure`, `get`, `modify` and `bind`.
* `run_bind_eq_ok` takes a successful chain apart, and `run_bind_of_ok` enters the second part of
  a chain whose first part is known to succeed.
* `after` is the state that a step leaves, for steps that may fail.
* `Ensures` says how a step may end, whatever the state is, and `Keeps` that a part of the state is
  the same afterwards.
* `bind_eq_ok`, `guard_eq_ok`, `mapM_eq_ok` and `foldlM_keeps` are about results that have no state,
  and `FailsOnly` says how such a result may fail.
* `Loops` says how a loop ends, turn by turn, if it does, and `Forks` what a recursion into two
  parts comes to, call by call.
-/

namespace SignerHost
namespace Step

variable {ε σ α β γ : Type}

@[simp] theorem run_throw (e : ε) (s : σ) :
    (throw e : EStateM ε σ α).run s = .error e s := rfl

@[simp] theorem run_ofExcept_ok (a : α) (s : σ) :
    (MonadExcept.ofExcept (.ok a) : EStateM ε σ α).run s = .ok a s := rfl

@[simp] theorem run_ofExcept_error (e : ε) (s : σ) :
    (MonadExcept.ofExcept (.error e) : EStateM ε σ α).run s = .error e s := rfl

@[simp] theorem run_map (f : α → β) (x : EStateM ε σ α) (s : σ) :
    (f <$> x).run s =
      match x.run s with
      | .ok a s' => .ok (f a) s'
      | .error e s' => .error e s' := rfl

@[simp] theorem run_discard (x : EStateM ε σ α) (s : σ) :
    (discard x).run s =
      match x.run s with
      | .ok _ s' => .ok () s'
      | .error e s' => .error e s' := rfl

@[simp] theorem run_ite {c : Prop} [Decidable c] (x y : EStateM ε σ α) (s : σ) :
    (if c then x else y).run s = if c then x.run s else y.run s := by
  split <;> rfl

theorem run_dite_pos {c : Prop} [Decidable c] (hc : c) (x : c → EStateM ε σ α)
    (y : ¬ c → EStateM ε σ α) (s : σ) : (dite c x y).run s = (x hc).run s := by
  rw [dif_pos hc]

theorem run_bind_of_ok {x : EStateM ε σ α} {f : α → EStateM ε σ β} {s s' : σ} {a : α}
    (hx : x.run s = .ok a s') : (x >>= f).run s = (f a).run s' := by
  rw [EStateM.run_bind, hx]

theorem run_bind_of_error {x : EStateM ε σ α} {f : α → EStateM ε σ β} {s s' : σ} {e : ε}
    (hx : x.run s = .error e s') : (x >>= f).run s = .error e s' := by
  rw [EStateM.run_bind, hx]

/-- A chain succeeds exactly if both of its parts do, one after the other. -/
theorem run_bind_eq_ok {x : EStateM ε σ α} {f : α → EStateM ε σ β} {s s'' : σ} {b : β} :
    (x >>= f).run s = .ok b s'' ↔
      ∃ a s', x.run s = .ok a s' ∧ (f a).run s' = .ok b s'' := by
  rw [EStateM.run_bind]
  cases hx : x.run s with
  | ok a s' =>
      constructor
      · intro h
        exact ⟨a, s', rfl, h⟩
      · rintro ⟨a', t, ht, h⟩
        cases ht
        exact h
  | error e s' => simp

/-- A result that was computed outside comes in without a change of the state. -/
theorem run_ofExcept_eq_ok {r : Except ε α} {s s' : σ} {a : α} :
    (MonadExcept.ofExcept r : EStateM ε σ α).run s = .ok a s' ↔ r = .ok a ∧ s' = s := by
  cases r with
  | ok b => simp [eq_comm]
  | error e => simp

/-- Steps over a list that each leave the state as it was do so one after the other. -/
theorem run_mapM_of_forall₂ {f : α → EStateM ε σ β} {xs : List α} {ys : List β} {s : σ}
    (h : List.Forall₂ (fun x y => (f x).run s = .ok y s) xs ys) :
    (xs.mapM f).run s = .ok ys s := by
  induction h with
  | nil => rfl
  | cons hfirst _ ih =>
      rw [List.mapM_cons, run_bind_of_ok hfirst, run_bind_of_ok ih, EStateM.run_pure]

/-! ## The state that is left -/

/-- The state after a step, whether the step ended in a value or a failure. -/
def after (x : EStateM ε σ α) (s : σ) : σ :=
  match x.run s with
  | .ok _ s' => s'
  | .error _ s' => s'

theorem after_of_ok {x : EStateM ε σ α} {s s' : σ} {a : α} (h : x.run s = .ok a s') :
    after x s = s' := by
  rw [after, h]

theorem after_of_error {x : EStateM ε σ α} {s s' : σ} {e : ε} (h : x.run s = .error e s') :
    after x s = s' := by
  rw [after, h]

theorem after_bind_of_ok {x : EStateM ε σ α} {f : α → EStateM ε σ β} {s s' : σ} {a : α}
    (h : x.run s = .ok a s') : after (x >>= f) s = after (f a) s' := by
  rw [after, run_bind_of_ok h, after]

@[simp] theorem after_ofExcept (r : Except ε α) (s : σ) :
    after (MonadExcept.ofExcept r : EStateM ε σ α) s = s := by
  cases r with
  | ok a => rfl
  | error e => rfl

theorem after_discard (x : EStateM ε σ α) (s : σ) : after (discard x) s = after x s := by
  rw [after, after, run_discard]
  cases x.run s with
  | ok a s' => rfl
  | error e s' => rfl

theorem after_map (f : α → β) (x : EStateM ε σ α) (s : σ) : after (f <$> x) s = after x s := by
  rw [after, after, run_map]
  cases x.run s with
  | ok a s' => rfl
  | error e s' => rfl

/-- A chain of steps that each leave the state as it was leaves it as it was. -/
theorem after_bind_eq_self {x : EStateM ε σ α} {f : α → EStateM ε σ β} {s : σ}
    (hx : after x s = s) (hf : ∀ a, after (f a) s = s) : after (x >>= f) s = s := by
  cases hrun : x.run s with
  | ok a s' =>
      rw [after_of_ok hrun] at hx
      rw [after_bind_of_ok hrun, hx]
      exact hf a
  | error e s' =>
      rw [after_of_error hrun] at hx
      rw [after_of_error (run_bind_of_error hrun), hx]

/-- What follows leaves the state as it finds it. -/
theorem after_bind_eq_left {x : EStateM ε σ α} {f : α → EStateM ε σ β}
    (hf : ∀ a s, after (f a) s = s) (s : σ) : after (x >>= f) s = after x s := by
  cases hrun : x.run s with
  | ok a s' => rw [after_bind_of_ok hrun, after_of_ok hrun, hf]
  | error e s' => rw [after_of_error hrun, after_of_error (run_bind_of_error hrun)]

/-- How a step ends, without the state. -/
def result (x : EStateM ε σ α) (s : σ) : Except ε α :=
  match x.run s with
  | .ok a _ => .ok a
  | .error e _ => .error e

theorem result_of_ok {x : EStateM ε σ α} {s s' : σ} {a : α} (h : x.run s = .ok a s') :
    result x s = .ok a := by
  rw [result, h]

theorem result_of_error {x : EStateM ε σ α} {s s' : σ} {e : ε} (h : x.run s = .error e s') :
    result x s = .error e := by
  rw [result, h]

@[simp] theorem result_ofExcept (r : Except ε α) (s : σ) :
    result (MonadExcept.ofExcept r : EStateM ε σ α) s = r := by
  cases r with
  | ok a => rfl
  | error e => rfl

/-- A chain whose first part succeeds ends as what follows. -/
theorem result_bind_of_ok {x : EStateM ε σ α} {f : α → EStateM ε σ β} {s : σ} {a : α}
    (h : result x s = .ok a) : result (x >>= f) s = result (f a) (after x s) := by
  cases hrun : x.run s with
  | ok a' s' =>
      rw [result_of_ok hrun] at h
      cases h
      rw [after_of_ok hrun, result, run_bind_of_ok hrun, result]
  | error e s' =>
      rw [result_of_error hrun] at h
      cases h

theorem result_map_eq_error {f : α → β} {x : EStateM ε σ α} {s : σ} {e : ε} :
    result (f <$> x) s = .error e ↔ result x s = .error e := by
  rw [result, result, run_map]
  cases x.run s with
  | ok a s' => simp
  | error e' s' => simp

/-- A chain fails in its first part, or in what follows. -/
theorem result_bind_eq_error {x : EStateM ε σ α} {f : α → EStateM ε σ β} {s : σ} {e : ε} :
    result (x >>= f) s = .error e ↔
      result x s = .error e ∨ ∃ a s', x.run s = .ok a s' ∧ result (f a) s' = .error e := by
  unfold result
  cases hrun : x.run s with
  | ok a s' =>
      rw [run_bind_of_ok hrun]
      simp
  | error e' s' =>
      rw [run_bind_of_error hrun]
      simp

/-! ## How a step may end -/

/-- From every state the value of a step has one property, or its failure has another one.  The
state may change in any way. -/
structure Ensures (x : EStateM ε σ α) (Q : α → Prop) (P : ε → Prop) : Prop where
  ok : ∀ {s s' : σ} {a : α}, x.run s = .ok a s' → Q a
  error : ∀ {s s' : σ} {e : ε}, x.run s = .error e s' → P e

namespace Ensures

variable {Q : α → Prop} {R : β → Prop} {P : ε → Prop}

theorem anything (x : EStateM ε σ α) : Ensures x (fun _ => True) fun _ => True where
  ok := fun _ => trivial
  error := fun _ => trivial

theorem pure {a : α} (h : Q a) : Ensures (Pure.pure a : EStateM ε σ α) Q P where
  ok := by
    intro s s' a' hrun
    cases hrun
    exact h
  error := by
    intro s s' e hrun
    cases hrun

theorem throw {e : ε} (h : P e) : Ensures (MonadExcept.throw e : EStateM ε σ α) Q P where
  ok := by
    intro s s' a hrun
    cases hrun
  error := by
    intro s s' e' hrun
    cases hrun
    exact h

theorem ofExcept {r : Except ε α} (hok : ∀ a, r = .ok a → Q a)
    (herror : ∀ e, r = .error e → P e) :
    Ensures (MonadExcept.ofExcept r : EStateM ε σ α) Q P := by
  cases r with
  | ok a => exact pure (hok a rfl)
  | error e => exact throw (herror e rfl)

theorem bind {x : EStateM ε σ α} {f : α → EStateM ε σ β} (hx : Ensures x Q P)
    (hf : ∀ a, Q a → Ensures (f a) R P) : Ensures (x >>= f) R P where
  ok := by
    intro s s'' b hrun
    obtain ⟨a, s', hfirst, hrest⟩ := run_bind_eq_ok.mp hrun
    exact (hf a (hx.ok hfirst)).ok hrest
  error := by
    intro s s'' e hrun
    cases hfirst : x.run s with
    | ok a s' =>
        rw [run_bind_of_ok hfirst] at hrun
        exact (hf a (hx.ok hfirst)).error hrun
    | error e' s' =>
        rw [run_bind_of_error hfirst] at hrun
        cases hrun
        exact hx.error hfirst

theorem mono {Q' : α → Prop} {P' : ε → Prop} {x : EStateM ε σ α} (h : Ensures x Q P)
    (hQ : ∀ a, Q a → Q' a) (hP : ∀ e, P e → P' e) : Ensures x Q' P' where
  ok := fun hrun => hQ _ (h.ok hrun)
  error := fun hrun => hP _ (h.error hrun)

theorem ite {c : Prop} [Decidable c] {x y : EStateM ε σ α} (hx : c → Ensures x Q P)
    (hy : ¬ c → Ensures y Q P) : Ensures (if c then x else y) Q P := by
  split
  · exact hx ‹_›
  · exact hy ‹_›

/-- One of two steps, and what both of them lead to. -/
theorem branch {c : Prop} [Decidable c] {x y : EStateM ε σ α} {f : α → EStateM ε σ β}
    (hx : Ensures x Q P) (hy : Ensures y Q P) (hf : ∀ a, Q a → Ensures (f a) R P) :
    Ensures (if c then x >>= f else y >>= f) R P :=
  ite (fun _ => bind hx hf) fun _ => bind hy hf

/-- A step that fails under a condition. -/
theorem guard {c : Prop} [Decidable c] {e : ε} {f : Unit → EStateM ε σ α} (he : P e)
    (hf : ¬ c → Ensures (f ()) Q P) :
    Ensures (if c then MonadExcept.throw e >>= f else f ()) Q P :=
  ite (fun _ => bind (Q := fun _ => False) (throw he) fun _ h => h.elim) hf

theorem mapM {f : α → EStateM ε σ β} {xs : List α} (h : ∀ x ∈ xs, Ensures (f x) R P) :
    Ensures (xs.mapM f) (fun _ => True) P := by
  induction xs with
  | nil => exact pure trivial
  | cons x xs ih =>
      rw [List.mapM_cons]
      refine bind (h x List.mem_cons_self) fun first _ => ?_
      exact bind (ih fun x hx => h x (List.mem_cons_of_mem _ hx)) fun rest _ => pure trivial

end Ensures

/-! ## What a step does not touch -/

/-- A part of the state is the same after a step, however the step ends. -/
def Keeps (part : σ → γ) (x : EStateM ε σ α) : Prop := ∀ s, part (after x s) = part s

namespace Keeps

variable {part : σ → γ}

theorem pure (a : α) : Keeps part (Pure.pure a : EStateM ε σ α) := fun _ => rfl

theorem throw (e : ε) : Keeps part (MonadExcept.throw e : EStateM ε σ α) := fun _ => rfl

theorem get : Keeps part (MonadState.get : EStateM ε σ σ) := fun _ => rfl

theorem modify {f : σ → σ} (h : ∀ s, part (f s) = part s) :
    Keeps part (modifyGet fun s => (⟨⟩, f s) : EStateM ε σ PUnit) := h

theorem ofExcept (r : Except ε α) : Keeps part (MonadExcept.ofExcept r : EStateM ε σ α) :=
  fun s => congrArg part (after_ofExcept r s)

theorem bind {x : EStateM ε σ α} {f : α → EStateM ε σ β} (hx : Keeps part x)
    (hf : ∀ a, Keeps part (f a)) : Keeps part (x >>= f) := by
  intro s
  have hfirst := hx s
  cases hrun : x.run s with
  | ok a s' =>
      rw [after_of_ok hrun] at hfirst
      rw [← hfirst, ← hf a s', after, after, run_bind_of_ok hrun]
  | error e s' =>
      rw [after_of_error hrun] at hfirst
      rw [← hfirst, after_of_error (run_bind_of_error hrun)]

theorem discard {x : EStateM ε σ α} (hx : Keeps part x) : Keeps part (Functor.discard x) :=
  fun s => (congrArg part (after_discard x s)).trans (hx s)

theorem ite {c : Prop} [Decidable c] {x y : EStateM ε σ α} (hx : Keeps part x)
    (hy : Keeps part y) : Keeps part (if c then x else y) := by
  split
  · exact hx
  · exact hy

/-- A step that fails under a condition. -/
theorem guard {c : Prop} [Decidable c] {e : ε} {f : Unit → EStateM ε σ α}
    (hf : Keeps part (f ())) : Keeps part (if c then MonadExcept.throw e >>= f else f ()) :=
  ite (bind (throw e) fun _ => hf) hf

end Keeps

/-! ## Steps without a state -/

theorem exists_of_isOk {x : Except ε α} (h : x.isOk = true) : ∃ a, x = .ok a := by
  cases x with
  | ok a => exact ⟨a, rfl⟩
  | error e => cases h

theorem exists_of_not_isOk {x : Except ε α} (h : x.isOk = false) : ∃ e, x = .error e := by
  cases x with
  | ok a => cases h
  | error e => exact ⟨e, rfl⟩

theorem map_eq_error {f : α → β} {x : Except ε α} {e : ε} :
    x.map f = .error e ↔ x = .error e := by
  cases x <;> simp [Except.map]

/-- A chain of results is a value exactly if both of its parts are. -/
theorem bind_eq_ok {x : Except ε α} {f : α → Except ε β} {b : β} :
    (x >>= f) = .ok b ↔ ∃ a, x = .ok a ∧ f a = .ok b := by
  cases x with
  | ok a =>
      constructor
      · intro h
        exact ⟨a, rfl, h⟩
      · rintro ⟨a', ha, h⟩
        cases ha
        exact h
  | error e =>
      constructor
      · intro h
        cases h
      · rintro ⟨a, ha, -⟩
        cases ha

theorem ite_eq_ok {c : Prop} [Decidable c] {x y : Except ε α} {a : α} :
    (if c then x else y) = .ok a ↔ c ∧ x = .ok a ∨ ¬ c ∧ y = .ok a := by
  by_cases h : c
  · simp [h]
  · simp [h]

/-- A failure is a value exactly under a condition that does not hold. -/
theorem error_eq_ok_iff {e : ε} {a : α} {P : Prop} (h : ¬ P) :
    (.error e : Except ε α) = .ok a ↔ P := by
  constructor
  · intro herror
    cases herror
  · intro hp
    exact absurd hp h

/-- A check that refuses under a condition, before what follows. -/
theorem guard_eq_ok {c : Prop} [Decidable c] {e : ε} {f : Unit → Except ε α} {a : α} :
    (if c then throw e >>= f else f ()) = .ok a ↔ ¬ c ∧ f () = .ok a := by
  by_cases h : c
  · rw [if_pos h]
    constructor
    · intro hthrow
      cases hthrow
    · rintro ⟨hnot, -⟩
      exact absurd h hnot
  · rw [if_neg h]
    simp [h]

/-- A list of results is a value exactly if each of them is. -/
theorem mapM_eq_ok {f : α → Except ε β} {xs : List α} {ys : List β} :
    xs.mapM f = .ok ys ↔ List.Forall₂ (fun x y => f x = .ok y) xs ys := by
  induction xs generalizing ys with
  | nil =>
      rw [List.mapM_nil, List.forall₂_nil_left_iff]
      constructor
      · intro h
        cases h
        rfl
      · rintro rfl
        rfl
  | cons x xs ih =>
      rw [List.mapM_cons, bind_eq_ok, List.forall₂_cons_left_iff]
      constructor
      · rintro ⟨y, hy, h⟩
        obtain ⟨rest, hrest, h⟩ := bind_eq_ok.mp h
        cases h
        exact ⟨y, rest, hy, ih.mp hrest, rfl⟩
      · rintro ⟨y, rest, hy, hrest, rfl⟩
        exact ⟨y, hy, bind_eq_ok.mpr ⟨rest, ih.mpr hrest, rfl⟩⟩

/-- Each entry of a list of values is the value of one of the results. -/
theorem exists_of_mem_of_mapM {f : α → Except ε β} {xs : List α} {ys : List β} {y : β}
    (h : xs.mapM f = .ok ys) (hy : y ∈ ys) : ∃ x ∈ xs, f x = .ok y := by
  have hrows := mapM_eq_ok.mp h
  clear h
  induction hrows with
  | nil => cases hy
  | @cons x first xs ys hfirst _ ih =>
      rcases List.mem_cons.mp hy with rfl | hy
      · exact ⟨x, List.mem_cons_self, hfirst⟩
      · obtain ⟨x', hx', hvalue⟩ := ih hy
        exact ⟨x', List.mem_cons_of_mem _ hx', hvalue⟩

/-- The first result in a list that is a failure is the failure of the list. -/
theorem mapM_eq_error {f : α → Except ε β} {front rest : List α} {x : α} {e : ε}
    (hfront : ∀ a ∈ front, ∃ b, f a = .ok b) (hx : f x = .error e) :
    (front ++ x :: rest).mapM f = .error e := by
  induction front with
  | nil =>
      rw [List.nil_append, List.mapM_cons, hx]
      rfl
  | cons a front ih =>
      obtain ⟨⟨b, hb⟩, hfront⟩ := List.forall_mem_cons.mp hfront
      rw [List.cons_append, List.mapM_cons, hb, ih hfront]
      rfl

/-- A list of results fails as the first of them does that is a failure. -/
theorem mapM_eq_error_iff {f : α → Except ε β} {xs : List α} {e : ε} :
    xs.mapM f = .error e ↔
      ∃ front x rest, xs = front ++ x :: rest ∧ (∀ a ∈ front, ∃ b, f a = .ok b) ∧
        f x = .error e := by
  constructor
  · intro h
    -- The elements in front of the one that fails are collected on the way to it.
    induction xs with
    | nil => cases h
    | cons x xs ih =>
        rw [List.mapM_cons] at h
        cases hx : f x with
        | error e' =>
            rw [hx] at h
            cases h
            exact ⟨[], x, xs, rfl, by simp, hx⟩
        | ok y =>
            cases hxs : xs.mapM f with
            | error e' =>
                rw [hx, hxs] at h
                cases h
                obtain ⟨front, x', rest, rfl, hfront, hfail⟩ := ih hxs
                exact ⟨x :: front, x', rest, rfl, List.forall_mem_cons.mpr ⟨⟨y, hx⟩, hfront⟩, hfail⟩
            | ok ys =>
                rw [hx, hxs] at h
                cases h
  · rintro ⟨front, x, rest, rfl, hfront, hfail⟩
    exact mapM_eq_error hfront hfail

/-- A list of results fails as one of them does. -/
theorem exists_of_mapM_eq_error {f : α → Except ε β} {xs : List α} {e : ε}
    (h : xs.mapM f = .error e) : ∃ x ∈ xs, f x = .error e := by
  obtain ⟨front, x, rest, rfl, -, hfail⟩ := mapM_eq_error_iff.mp h
  exact ⟨x, List.mem_append_right _ List.mem_cons_self, hfail⟩

/-- What every step of a fold keeps is kept by the fold. -/
theorem foldlM_keeps {f : β → α → Except ε β} {P : β → Prop}
    (hstep : ∀ b x b', f b x = .ok b' → P b → P b') {xs : List α} {b b' : β}
    (h : xs.foldlM f b = .ok b') (hb : P b) : P b' := by
  induction xs generalizing b with
  | nil =>
      cases h
      exact hb
  | cons x xs ih =>
      rw [List.foldlM_cons] at h
      obtain ⟨next, hnext, h⟩ := bind_eq_ok.mp h
      exact ih h (hstep b x next hnext hb)

/-- What grows by one at most in every step of a fold grows by no more than there are steps. -/
theorem foldlM_le {f : β → α → Except ε β} (size : β → Nat)
    (hstep : ∀ b x b', f b x = .ok b' → size b' ≤ size b + 1) {xs : List α} {b b' : β}
    (h : xs.foldlM f b = .ok b') : size b' ≤ size b + xs.length := by
  induction xs generalizing b with
  | nil =>
      cases h
      exact le_refl _
  | cons x xs ih =>
      rw [List.foldlM_cons] at h
      obtain ⟨next, hnext, h⟩ := bind_eq_ok.mp h
      have hfirst := hstep b x next hnext
      have hrest := ih h
      rw [List.length_cons]
      omega

/-! ## Loops -/

/-- How a loop ends that collects a value in every turn.  A turn ends the loop, fails, or gives a
value and the state of the next turn.  A loop without an end has no outcome. -/
inductive Loops (turn : σ → Except ε (Option (α × σ))) : σ → Except ε (List α) → Prop
  | ended {s : σ} (hturn : turn s = .ok none) : Loops turn s (.ok [])
  | failed {s : σ} {e : ε} (hturn : turn s = .error e) : Loops turn s (.error e)
  | turned {s next : σ} {a : α} {outcome : Except ε (List α)}
      (hturn : turn s = .ok (some (a, next))) (hrest : Loops turn next outcome) :
      Loops turn s (outcome.map (a :: ·))

namespace Loops

variable {turn : σ → Except ε (Option (α × σ))} {s : σ} {outcome outcome' : Except ε (List α)}

/-- A loop has one outcome at most. -/
theorem unique (h : Loops turn s outcome) (h' : Loops turn s outcome') : outcome = outcome' := by
  induction h generalizing outcome' with
  | ended hturn =>
      rcases h' with - | herror | ⟨hother, -⟩
      · rfl
      · cases hturn.symm.trans herror
      · cases hturn.symm.trans hother
  | failed hturn =>
      rcases h' with hended | herror | ⟨hother, -⟩
      · cases hturn.symm.trans hended
      · cases hturn.symm.trans herror
        rfl
      · cases hturn.symm.trans hother
  | turned hturn _ ih =>
      rcases h' with hended | herror | ⟨hother, hrest⟩
      · cases hturn.symm.trans hended
      · cases hturn.symm.trans herror
      · cases hturn.symm.trans hother
        rw [ih hrest]

theorem iff_eq (h : Loops turn s outcome) : Loops turn s outcome' ↔ outcome' = outcome := by
  constructor
  · exact fun h' => h'.unique h
  · rintro rfl
    exact h

end Loops

/-! ## Recursions into two parts -/

/-- What a recursion comes to.  A call has nothing to divide, is refused, or makes a call for
either of two parts and joins what they come to.  A recursion whose calls have no end comes to
nothing. -/
inductive Forks (split : σ → Except ε (Option (σ × σ))) (single : σ → β) (refuse : ε → β)
    (join : β → β → β) : σ → β → Prop
  | single {s : σ} (hsplit : split s = .ok none) : Forks split single refuse join s (single s)
  | refused {s : σ} {e : ε} (hsplit : split s = .error e) :
      Forks split single refuse join s (refuse e)
  | joined {s left right : σ} {a b : β} (hsplit : split s = .ok (some (left, right)))
      (hleft : Forks split single refuse join left a)
      (hright : Forks split single refuse join right b) :
      Forks split single refuse join s (join a b)

namespace Forks

variable {split : σ → Except ε (Option (σ × σ))} {single : σ → β} {refuse : ε → β}
  {join : β → β → β} {s : σ} {b b' : β}

/-- A recursion comes to one thing at most. -/
theorem unique (h : Forks split single refuse join s b) (h' : Forks split single refuse join s b') :
    b = b' := by
  induction h generalizing b' with
  | single hsplit =>
      rcases h' with - | herror | ⟨hother, -, -⟩
      · rfl
      · cases hsplit.symm.trans herror
      · cases hsplit.symm.trans hother
  | refused hsplit =>
      rcases h' with hsingle | herror | ⟨hother, -, -⟩
      · cases hsplit.symm.trans hsingle
      · cases hsplit.symm.trans herror
        rfl
      · cases hsplit.symm.trans hother
  | joined hsplit _ _ ihLeft ihRight =>
      rcases h' with hsingle | herror | ⟨hother, hleft, hright⟩
      · cases hsplit.symm.trans hsingle
      · cases hsplit.symm.trans herror
      · cases hsplit.symm.trans hother
        rw [ihLeft hleft, ihRight hright]

theorem iff_eq (h : Forks split single refuse join s b) :
    Forks split single refuse join s b' ↔ b' = b := by
  constructor
  · exact fun h' => h'.unique h
  · rintro rfl
    exact h

end Forks

/-! ## How a result may fail -/

/-- If a result is a failure, it has a property.  Nothing is said about a result that is a value. -/
def FailsOnly (P : ε → Prop) (x : Except ε α) : Prop := ∀ e, x = .error e → P e

namespace FailsOnly

variable {P : ε → Prop}

theorem pure (a : α) : FailsOnly P (Pure.pure a : Except ε α) := fun _ h => by cases h

theorem error {e : ε} (h : P e) : FailsOnly P (.error e : Except ε α) := fun _ heq => by
  cases heq
  exact h

theorem bind {x : Except ε α} {f : α → Except ε β} (hx : FailsOnly P x)
    (hf : ∀ a, x = .ok a → FailsOnly P (f a)) : FailsOnly P (x >>= f) := by
  cases x with
  | ok a => exact hf a rfl
  | error e => exact error (hx e rfl)

theorem ite {c : Prop} [Decidable c] {x y : Except ε α} (hx : c → FailsOnly P x)
    (hy : ¬ c → FailsOnly P y) : FailsOnly P (if c then x else y) := by
  split
  · exact hx ‹_›
  · exact hy ‹_›

/-- A check that refuses under a condition, before what follows. -/
theorem guard {c : Prop} [Decidable c] {e : ε} {f : Unit → Except ε α} (he : P e)
    (hf : ¬ c → FailsOnly P (f ())) :
    FailsOnly P (if c then MonadExcept.throw e >>= f else f ()) :=
  ite (fun _ => error he) hf

theorem mapM {f : α → Except ε β} {xs : List α} (h : ∀ x ∈ xs, FailsOnly P (f x)) :
    FailsOnly P (xs.mapM f) := by
  intro e herror
  obtain ⟨x, hx, hfail⟩ := exists_of_mapM_eq_error herror
  exact h x hx e hfail

theorem foldlM {f : β → α → Except ε β} {xs : List α} (h : ∀ b, ∀ x ∈ xs, FailsOnly P (f b x))
    (b : β) : FailsOnly P (xs.foldlM f b) := by
  induction xs generalizing b with
  | nil => exact pure b
  | cons x xs ih =>
      exact bind (h b x List.mem_cons_self) fun next _ =>
        ih (fun b x hx => h b x (List.mem_cons_of_mem _ hx)) next

end FailsOnly

end Step
end SignerHost

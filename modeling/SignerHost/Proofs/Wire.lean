import SignerHost.Proofs.Step
import SignerHost.Wire

/-!
# Readers that follow each other

Two readers of the same bytes may build different things.  The second follows the first if it
reads the same keys and leaves the same rest wherever the first succeeds.

* `entries_follows` lifts this from one field to a whole map, with any relation between the two
  results that each field keeps.
* `run_entries` takes one turn of the reading of a map, if every turn takes bytes.
* `whole_eq_ok` says what reading a byte string to its end means.
-/

namespace SignerHost
namespace Wire

open Step

section Follows

variable {α β : Type} {key : Reader Bytes} {field : α → Bytes → Reader α}
  {field' : β → Bytes → Reader β} {R : α → β → Prop}
  (hstep : ∀ {a a' : α} {b : β} {k s s' : Bytes}, k ≠ [] → R a b →
    (field a k).run s = .ok a' s' → ∃ b', (field' b k).run s = .ok b' s' ∧ R a' b')

include hstep

theorem entriesFrom_follows {fuel : Nat} {a a' : α} {b : β} {s s' : Bytes}
    (h : (entriesFrom key field fuel a).run s = .ok a' s') (hR : R a b) :
    ∃ b', (entriesFrom key field' fuel b).run s = .ok b' s' ∧ R a' b' := by
  induction fuel generalizing a b s with
  | zero =>
      cases h
      exact ⟨b, rfl, hR⟩
  | succ fuel ih =>
      rw [entriesFrom] at h
      obtain ⟨k, s₁, hk, h⟩ := run_bind_eq_ok.mp h
      rw [entriesFrom, run_bind_of_ok hk]
      by_cases hempty : k = []
      · -- The empty key ends both readings at the same place.
        rw [if_pos hempty] at h ⊢
        cases h
        exact ⟨b, rfl, hR⟩
      · rw [if_neg hempty] at h ⊢
        obtain ⟨next, s₂, hnext, h⟩ := run_bind_eq_ok.mp h
        obtain ⟨next', hnext', hR'⟩ := hstep hempty hR hnext
        rw [run_bind_of_ok hnext']
        exact ih h hR'

theorem entries_follows {a a' : α} {b : β} {s s' : Bytes}
    (h : (entries key field a).run s = .ok a' s') (hR : R a b) :
    ∃ b', (entries key field' b).run s = .ok b' s' ∧ R a' b' :=
  entriesFrom_follows hstep h hR

end Follows

section Unfold

variable {α : Type} {key : Reader Bytes} {field : α → Bytes → Reader α}
  (hshorter : ∀ {a a' : α} {k s s₁ s₂ : Bytes}, key.run s = .ok k s₁ → k ≠ [] →
    (field a k).run s₁ = .ok a' s₂ → s₂.length < s.length)

include hshorter

/-- As many turns as there are bytes are enough.  Every turn but the last takes a key and so at
least one byte. -/
theorem entriesFrom_of_length_lt {fuel fuel' : Nat} {a : α} {s : Bytes} (h : s.length < fuel)
    (h' : s.length < fuel') :
    (entriesFrom key field fuel a).run s = (entriesFrom key field fuel' a).run s := by
  induction fuel generalizing fuel' a s with
  | zero => omega
  | succ fuel ih =>
      obtain ⟨fuel', rfl⟩ := Nat.exists_eq_succ_of_ne_zero (Nat.ne_zero_of_lt h')
      rw [entriesFrom, entriesFrom]
      cases hkey : key.run s with
      | error failure rest => rw [run_bind_of_error hkey, run_bind_of_error hkey]
      | ok k s₁ =>
          rw [run_bind_of_ok hkey, run_bind_of_ok hkey]
          split_ifs with hempty
          · rfl
          · cases hfield : (field a k).run s₁ with
            | error failure rest => rw [run_bind_of_error hfield, run_bind_of_error hfield]
            | ok next s₂ =>
                -- Each entry takes bytes away, so the fuel of both is still enough for the rest.
                have hlt := hshorter hkey hempty hfield
                rw [run_bind_of_ok hfield, run_bind_of_ok hfield]
                exact ih (by omega) (by omega)

/-- One turn, and then the rest of the map. -/
theorem run_entries (a : α) (s : Bytes) :
    (entries key field a).run s =
      (do
        let k ← key
        if k = [] then return a
        let next ← field a k
        entries key field next : Reader α).run s := by
  have hunfold : (entries key field a).run s =
      (entriesFrom key field (s.length + 1) a).run s := rfl
  rw [hunfold, entriesFrom]
  cases hkey : key.run s with
  | error failure rest => rw [run_bind_of_error hkey, run_bind_of_error hkey]
  | ok k s₁ =>
      rw [run_bind_of_ok hkey, run_bind_of_ok hkey]
      split_ifs with hempty
      · rfl
      · cases hfield : (field a k).run s₁ with
        | error failure rest => rw [run_bind_of_error hfield, run_bind_of_error hfield]
        | ok next s₂ =>
            rw [run_bind_of_ok hfield, run_bind_of_ok hfield]
            exact entriesFrom_of_length_lt hshorter (hshorter hkey hempty hfield)
              (Nat.lt_succ_self _)

end Unfold

theorem whole_eq_ok {α : Type} {reader : Reader α} {bs : Bytes} {a : α} :
    whole reader bs = .ok a ↔ reader.run bs = .ok a [] := by
  unfold whole
  show _ ↔ reader bs = _
  cases hread : reader bs with
  | ok value rest =>
      cases rest with
      | nil => simp
      | cons first rest => simp [refuse]
  | error failure rest => simp

end Wire
end SignerHost

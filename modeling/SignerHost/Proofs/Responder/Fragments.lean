import SignerHost.Proofs.Responder.Knowledge

/-!
# Fragments that the device hands over

A responder collects the fragments that the device hands over, in the order of the queries.  No
other query adds, removes or changes a fragment, and neither does what the responder learns.

* `Query.fragmentOf?` finds the fragment in the bytes of a query.
* `yielded_of_execute` is the effect of one query on the fragments.
-/

namespace SignerHost

open Step

namespace Query

/-- The fragment that the bytes of a query hand over. -/
def fragmentOf? : Bytes → Option Bytes
  | [] => none
  | code :: body => if code = 0x10 then some body else none

/-- The query does not hand over anything.  Such a query leaves the fragments as they are. -/
def AsksOnly (q : Query) : Prop := ∀ fragment, q ≠ .yield fragment

/-- A query is read as one that hands over exactly the fragment that its bytes hand over. -/
theorem fragmentOf?_of_parse {request : Bytes} {q : Query} (h : parse request = .ok q) :
    (∃ fragment, fragmentOf? request = some fragment ∧ q = .yield fragment) ∨
      (fragmentOf? request = none ∧ q.AsksOnly) := by
  cases parse_eq_ok.mp h with
  | yield fragment => exact .inl ⟨fragment, rfl, rfl⟩
  | preimage => exact .inr ⟨rfl, fun _ h => by cases h⟩
  | leafProof => exact .inr ⟨rfl, fun _ h => by cases h⟩
  | leafIndex => exact .inr ⟨rfl, fun _ h => by cases h⟩
  | moreElements => exact .inr ⟨rfl, fun _ h => by cases h⟩

end Query

namespace Responder

/-! ## Learning keeps the fragments -/

theorem yielded_withElements (r : Responder) (elements : List Bytes) :
    (r.withElements elements).yielded = r.yielded := by
  unfold withElements
  induction elements generalizing r with
  | nil => rfl
  | cons e rest ih => exact ih (r.withPreimage (leafString e))

theorem yielded_withList (r : Responder) (elements : List Bytes) :
    (r.withList elements).yielded = r.yielded := yielded_withElements r elements

theorem yielded_withLists (r : Responder) (lists : List (List Bytes)) :
    (r.withLists lists).yielded = r.yielded := by
  unfold withLists
  induction lists generalizing r with
  | nil => rfl
  | cons elements rest ih => exact (ih (r.withList elements)).trans (yielded_withList r elements)

theorem keeps_addPreimage (preimage : Bytes) : Keeps yielded (addPreimage preimage) := fun _ => rfl

theorem keeps_addKeyList (keys : List String) : Keeps yielded (addKeyList keys) := by
  intro r
  rw [after_of_ok (run_addKeyList keys r)]
  exact yielded_withList r _

/-! ## Answers keep the fragments -/

theorem keeps_answerPreimage (digest : Bytes) : Keeps yielded (answerPreimage digest) := by
  unfold answerPreimage
  refine .bind .get fun r => ?_
  split
  · refine .bind (.ofExcept _) fun total => .bind (.ofExcept _) fun count => ?_
    exact .bind (.modify fun _ => rfl) fun _ => .pure _
  · exact .throw _

theorem keeps_answerLeafProof (root : Bytes) (size index : Nat) :
    Keeps yielded (answerLeafProof root size index) := by
  unfold answerLeafProof
  refine .bind .get fun r => ?_
  split
  · refine .guard (.bind .get fun r => .guard ?_)
    refine .bind (.ofExcept _) fun proof => .bind (.ofExcept _) fun leaf => ?_
    refine .bind (.ofExcept _) fun total => .bind (.ofExcept _) fun count => ?_
    exact .bind (.modify fun _ => rfl) fun _ => .pure _
  · exact .throw _

theorem keeps_answerLeafIndex (root leaf : Bytes) :
    Keeps yielded (answerLeafIndex root leaf) := by
  unfold answerLeafIndex
  refine .bind .get fun r => ?_
  split
  · split
    · exact .bind (.ofExcept _) fun position => .pure _
    · exact .bind (.ofExcept _) fun position => .pure _
  · exact .throw _

theorem keeps_answerMoreElements : Keeps yielded answerMoreElements := by
  unfold answerMoreElements
  refine .bind .get fun r => ?_
  simp only []
  split
  · refine .guard (.bind (.ofExcept _) fun count => .bind (.ofExcept _) fun length => ?_)
    exact .bind (.modify fun _ => rfl) fun _ => .pure _
  · exact .throw _

theorem keeps_answer {q : Query} (h : q.AsksOnly) : Keeps yielded (answer q) := by
  cases q with
  | yield fragment => exact absurd rfl (h fragment)
  | preimage digest => exact keeps_answerPreimage digest
  | leafProof root size index => exact keeps_answerLeafProof root size index
  | leafIndex root leaf => exact keeps_answerLeafIndex root leaf
  | moreElements => exact keeps_answerMoreElements

/-- A query that is answered adds the fragment that it hands over, if there is one. -/
theorem yielded_of_execute {request a : Bytes} {r r' : Responder}
    (h : (execute request).run r = .ok a r') :
    r'.yielded = r.yielded ++ (Query.fragmentOf? request).toList := by
  obtain ⟨q, hparse, hanswer⟩ := run_execute_eq_ok.mp h
  rcases Query.fragmentOf?_of_parse hparse with ⟨fragment, hfragment, rfl⟩ | ⟨hnone, hasks⟩
  · rw [hfragment]
    cases hanswer
    rfl
  · have hkeeps := keeps_answer hasks r
    rw [after_of_ok hanswer] at hkeeps
    rw [hkeeps, hnone]
    simp

end Responder
end SignerHost

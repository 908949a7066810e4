import SignerHost.Proofs.Merkle.Binding
import SignerHost.Proofs.Responder.Answers

/-!
# What a responder knows

Registering adds one entry for each digest and one for each root.  An entry that is added later
takes the place of one with the same key, so what was known stays known as long as no digest of the
run stands for two different things.

* `withPreimage` and `withList` are the effects of registering; `run_addPreimage`, `run_addList`,
  `run_addKeyList` and `run_addMap` say so for each kind of registration.
* `KnowsPreimage` and `KnowsList` are kept by further registrations of the same run.
-/

namespace SignerHost

open Step

namespace Known

variable {α : Type}

@[simp] theorem lookup_learn_self (known : Known α) (key : Bytes) (value : α) :
    (known.learn key value).lookup key = some value := by
  simp [learn]

theorem lookup_filter_of_ne (known : Known α) {key other : Bytes} (h : other ≠ key) :
    (known.filter fun p => decide (p.1 ≠ key)).lookup other = known.lookup other := by
  induction known with
  | nil => rfl
  | cons p rest ih =>
      obtain ⟨k, v⟩ := p
      by_cases hk : k = key
      · have hother : (other == k) = false := by
          rw [hk]
          simpa using h
        rw [List.filter_cons_of_neg (by simpa using hk), ih, List.lookup_cons, hother]
      · rw [List.filter_cons_of_pos (by simpa using hk), List.lookup_cons, List.lookup_cons, ih]

theorem lookup_learn_of_ne (known : Known α) {key other : Bytes} (value : α)
    (h : other ≠ key) : (known.learn key value).lookup other = known.lookup other := by
  have hother : (other == key) = false := by simpa using h
  rw [learn, List.lookup_cons, hother]
  simp only []
  split
  · exact lookup_filter_of_ne known h
  · rfl

/-- What is found after learning was just learned under its key, or was found before. -/
theorem eq_or_of_lookup_learn {known : Known α} {key other : Bytes} {value found : α}
    (h : (known.learn key value).lookup other = some found) :
    other = key ∧ found = value ∨ known.lookup other = some found := by
  by_cases hkey : other = key
  · rw [hkey, lookup_learn_self] at h
    cases h
    exact .inl ⟨hkey, rfl⟩
  · rw [lookup_learn_of_ne _ _ hkey] at h
    exact .inr h

theorem of_lookup_learn {known : Known α} {key other : Bytes} {value found : α}
    (h : (known.learn key value).lookup other = some found) :
    found = value ∨ known.lookup other = some found :=
  (eq_or_of_lookup_learn h).imp_left And.right

end Known

namespace Responder

/-! ## The effects of registering -/

/-- The responder that also knows a byte string. -/
def withPreimage (r : Responder) (preimage : Bytes) : Responder :=
  { r with preimages := r.preimages.learn (sha256 preimage) preimage }

/-- The responder that also knows the elements of a list, one after the other. -/
def withElements (r : Responder) (elements : List Bytes) : Responder :=
  elements.foldl (fun r e => r.withPreimage (leafString e)) r

/-- The responder that also knows a list and its elements.  Its elements come first, as they do
when it is registered. -/
def withList (r : Responder) (elements : List Bytes) : Responder :=
  { r.withElements elements with
    lists := r.lists.learn (merkleRoot elements) (.ofElements elements) }

@[simp] theorem queue_withPreimage (r : Responder) (p : Bytes) :
    (r.withPreimage p).queue = r.queue := rfl

@[simp] theorem lists_withPreimage (r : Responder) (p : Bytes) :
    (r.withPreimage p).lists = r.lists := rfl

@[simp] theorem queue_withElements (r : Responder) (elements : List Bytes) :
    (r.withElements elements).queue = r.queue := by
  induction elements generalizing r with
  | nil => rfl
  | cons e rest ih => exact ih (r.withPreimage (leafString e))

@[simp] theorem lists_withElements (r : Responder) (elements : List Bytes) :
    (r.withElements elements).lists = r.lists := by
  induction elements generalizing r with
  | nil => rfl
  | cons e rest ih => exact ih (r.withPreimage (leafString e))

@[simp] theorem queue_withList (r : Responder) (elements : List Bytes) :
    (r.withList elements).queue = r.queue := queue_withElements r elements

@[simp] theorem lists_withList (r : Responder) (elements : List Bytes) :
    (r.withList elements).lists =
      r.lists.learn (merkleRoot elements) (.ofElements elements) := rfl

theorem run_addPreimage (preimage : Bytes) (r : Responder) :
    (addPreimage preimage).run r = .ok (sha256 preimage) (r.withPreimage preimage) := rfl

theorem run_addElements (elements : List Bytes) (r : Responder) :
    (elements.forM fun e => discard (addPreimage (0x00 :: e)) : Dialogue Unit).run r =
      .ok () (r.withElements elements) := by
  induction elements generalizing r with
  | nil => rfl
  | cons e rest ih =>
      have hfirst : (discard (addPreimage (0x00 :: e)) : Dialogue Unit).run r =
          .ok () (r.withPreimage (leafString e)) := rfl
      show ((discard (addPreimage (0x00 :: e)) : Dialogue Unit) >>= fun _ =>
        rest.forM fun e => discard (addPreimage (0x00 :: e))).run r = _
      rw [run_bind_of_ok hfirst, ih]
      rfl

theorem run_addList (elements : List Bytes) (r : Responder) :
    (addList elements).run r = .ok (merkleRoot elements) (r.withList elements) := by
  rw [addList, run_bind_of_ok (run_addElements elements r)]
  show EStateM.Result.ok (merkleRoot elements) { r.withElements elements with
    lists := (r.withElements elements).lists.learn (merkleRoot elements) (.ofElements elements) } = _
  rw [lists_withElements]
  rfl

theorem run_addKeyList (keys : List String) (r : Responder) :
    (addKeyList keys).run r =
      .ok (merkleRoot (keys.map Text.utf8))
        { r.withList (keys.map Text.utf8) with
          keyLists := (r.withList (keys.map Text.utf8)).keyLists.learn
            (merkleRoot (keys.map Text.utf8)) keys } := by
  rw [addKeyList, run_bind_of_ok (run_addList _ r)]
  rfl

theorem run_addMap (m : ByteMap) (r : Responder) :
    (addMap m).run r =
      match mapCommitment m with
      | .ok commitment => .ok commitment ((r.withList m.keys).withList m.values)
      | .error failure => .error failure ((r.withList m.keys).withList m.values) := by
  have hkeys : (discard (addList m.keys) : Dialogue Unit).run r = .ok () (r.withList m.keys) := by
    rw [run_discard, run_addList]
  have hvalues : (discard (addList m.values) : Dialogue Unit).run (r.withList m.keys) =
      .ok () ((r.withList m.keys).withList m.values) := by
    rw [run_discard, run_addList]
  rw [addMap, run_bind_of_ok hkeys, run_bind_of_ok hvalues]
  -- Both lists stay registered even if the number of pairs has no form.
  cases mapCommitment m with
  | ok commitment => rfl
  | error failure => rfl

/-! ## Knowing -/

/-- The byte string is found under its digest. -/
def KnowsPreimage (r : Responder) (preimage : Bytes) : Prop :=
  r.preimages.lookup (sha256 preimage) = some preimage

/-- The list is found under its root, and each of its elements as what its leaf stands for.  The
position of an element does not matter here. -/
structure KnowsList (r : Responder) (elements : List Bytes) : Prop where
  list : r.lists.lookup (merkleRoot elements) = some (.ofElements elements)
  elements : ∀ e ∈ elements, r.KnowsPreimage (leafString e)

theorem knowsPreimage_withPreimage (r : Responder) (preimage : Bytes) :
    (r.withPreimage preimage).KnowsPreimage preimage :=
  Known.lookup_learn_self _ _ _

section Run

variable {run : List Hashed} (hrun : NoCollision run) {r : Responder}

include hrun

/-- What is known stays known when another byte string of the run is registered. -/
theorem KnowsPreimage.withPreimage {p q : Bytes} (h : r.KnowsPreimage p)
    (hp : .bytes p ∈ run) (hq : .bytes q ∈ run) : (r.withPreimage q).KnowsPreimage p := by
  by_cases hdigest : sha256 p = sha256 q
  · -- An entry with the same digest is an entry for the same string.
    have hpq : Hashed.bytes p = .bytes q := hrun _ hp _ hq hdigest
    cases hpq
    exact knowsPreimage_withPreimage r p
  · exact (Known.lookup_learn_of_ne _ _ hdigest).trans h

theorem KnowsPreimage.withElements {p : Bytes} {elements : List Bytes} (h : r.KnowsPreimage p)
    (hp : .bytes p ∈ run) (helements : ∀ e ∈ elements, .bytes (leafString e) ∈ run) :
    (r.withElements elements).KnowsPreimage p := by
  induction elements generalizing r with
  | nil => exact h
  | cons e rest ih =>
      exact ih (h.withPreimage hrun hp (helements e List.mem_cons_self))
        fun e' he' => helements e' (List.mem_cons_of_mem _ he')

theorem knowsPreimage_withElements {elements : List Bytes}
    (helements : ∀ e ∈ elements, .bytes (leafString e) ∈ run) {e : Bytes} (he : e ∈ elements) :
    (r.withElements elements).KnowsPreimage (leafString e) := by
  induction elements generalizing r with
  | nil => cases he
  | cons first rest ih =>
      have hrest : ∀ e ∈ rest, .bytes (leafString e) ∈ run :=
        fun e' he' => helements e' (List.mem_cons_of_mem _ he')
      rcases List.mem_cons.mp he with rfl | he
      · exact (knowsPreimage_withPreimage r (leafString e)).withElements hrun
          (helements e List.mem_cons_self) hrest
      · exact ih hrest he

end Run

theorem bytes_leafString_mem {elements : List Bytes} {e : Bytes} (he : e ∈ elements) :
    .bytes (leafString e) ∈ hashedElements elements := by
  unfold hashedElements
  exact List.mem_append_left _ (List.mem_map_of_mem he)

section Run

variable {run : List Hashed} (hrun : NoCollision run) {r : Responder} {ys : List Bytes}
  (hys : ∀ a ∈ hashedElements ys, a ∈ run)

include hrun hys

theorem KnowsPreimage.withList {p : Bytes} (h : r.KnowsPreimage p) (hp : .bytes p ∈ run) :
    (r.withList ys).KnowsPreimage p :=
  h.withElements hrun hp fun _ he => hys _ (bytes_leafString_mem he)

/-- A list that was just registered is known. -/
theorem knowsList_withList : (r.withList ys).KnowsList ys where
  list := Known.lookup_learn_self _ _ _
  elements := fun _ he =>
    knowsPreimage_withElements hrun (fun _ he' => hys _ (bytes_leafString_mem he')) he

/-- A list is still found under its root when another list of the run is registered. -/
theorem lookup_lists_withList {xs : List Bytes}
    (h : r.lists.lookup (merkleRoot xs) = some (.ofElements xs))
    (hxs : ∀ a ∈ hashedElements xs, a ∈ run) :
    (r.withList ys).lists.lookup (merkleRoot xs) = some (.ofElements xs) := by
  by_cases hroot : merkleRoot xs = merkleRoot ys
  · -- A list with the same root is the same list.
    rw [elements_eq_of_merkleRoot_eq hrun hxs hys hroot]
    exact Known.lookup_learn_self _ _ _
  · exact (Known.lookup_learn_of_ne _ _ hroot).trans h

/-- A known list stays known when another list of the run is registered. -/
theorem KnowsList.withList {xs : List Bytes} (h : r.KnowsList xs)
    (hxs : ∀ a ∈ hashedElements xs, a ∈ run) : (r.withList ys).KnowsList xs where
  list := lookup_lists_withList hrun hys h.list hxs
  elements := fun e he =>
    (h.elements e he).withList hrun hys (hxs _ (bytes_leafString_mem he))

end Run

/-- The responder that also knows some lists, registered one after the other. -/
def withLists (r : Responder) (lists : List (List Bytes)) : Responder :=
  lists.foldl withList r

theorem withLists_append (r : Responder) (lists others : List (List Bytes)) :
    r.withLists (lists ++ others) = (r.withLists lists).withLists others :=
  List.foldl_append

@[simp] theorem queue_withLists (r : Responder) (lists : List (List Bytes)) :
    (r.withLists lists).queue = r.queue := by
  induction lists generalizing r with
  | nil => rfl
  | cons xs rest ih =>
      rw [withLists, List.foldl_cons]
      exact (ih (r.withList xs)).trans (queue_withList r xs)

section Lists

variable {run : List Hashed} (hrun : NoCollision run)

include hrun

theorem KnowsList.withLists {r : Responder} {xs : List Bytes} {lists : List (List Bytes)}
    (h : r.KnowsList xs) (hxs : ∀ a ∈ hashedElements xs, a ∈ run)
    (hlists : ∀ ys ∈ lists, ∀ a ∈ hashedElements ys, a ∈ run) :
    (r.withLists lists).KnowsList xs := by
  induction lists generalizing r with
  | nil => exact h
  | cons ys rest ih =>
      have hys := hlists ys List.mem_cons_self
      exact ih (h.withList hrun hys hxs) fun zs hzs => hlists zs (List.mem_cons_of_mem _ hzs)

/-- Whatever was known before, all lists of a run are known once they are registered.  The
induction is on the lists, each of which leaves the ones before it known. -/
theorem knowsList_withLists {r : Responder} {lists : List (List Bytes)}
    (hlists : ∀ ys ∈ lists, ∀ a ∈ hashedElements ys, a ∈ run) {xs : List Bytes}
    (hxs : xs ∈ lists) : (r.withLists lists).KnowsList xs := by
  induction lists generalizing r with
  | nil => cases hxs
  | cons ys rest ih =>
      have hrest : ∀ zs ∈ rest, ∀ a ∈ hashedElements zs, a ∈ run :=
        fun zs hzs => hlists zs (List.mem_cons_of_mem _ hzs)
      rcases List.mem_cons.mp hxs with rfl | hxs
      · -- The list is known right after it was registered, and later lists do not change that.
        have hknown := knowsList_withList hrun (r := r) (hlists xs List.mem_cons_self)
        exact hknown.withLists hrun (hlists xs List.mem_cons_self) hrest
      · exact ih hrest hxs

end Lists

theorem KnowsList.withPreimage {run : List Hashed} (hrun : NoCollision run) {r : Responder}
    {xs : List Bytes} {p : Bytes} (h : r.KnowsList xs)
    (hxs : ∀ a ∈ hashedElements xs, a ∈ run) (hp : .bytes p ∈ run) :
    (r.withPreimage p).KnowsList xs where
  list := h.list
  elements := fun e he =>
    (h.elements e he).withPreimage hrun (hxs _ (bytes_leafString_mem he)) hp

end Responder
end SignerHost

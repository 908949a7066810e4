import SignerHost.Proofs.Device.Lookup

/-!
# Everything that was registered can be read back

A host registers byte strings, lists, maps and keys in any order, and a device reads in between.

* `Read` and `Registration` are what may happen, and `play` is a new responder after a list of them.
* `Regular` responders are not changed by any read, whether it succeeds or not.
* `Sound` is the invariant of a play: the queue is empty and all that was registered is known.
* `retrieval` says that every list and every byte string is read back whole.
-/

namespace SignerHost

open Step

/-! ## Activities -/

/-- What a device may read.  A byte string is asked for by its digest, and everything else by the
root of a list. -/
inductive Read
  | leaf (root : Bytes) (size index : Nat)
  | element (root : Bytes) (size index : Nat)
  | preimage (digest : Bytes)
  | position (root hash : Bytes)

/-- What a host may register.  It is one of the ways in which the client makes something known. -/
inductive Registration
  | preimage (bs : Bytes)
  | list (elements : List Bytes)
  | map (m : ByteMap)
  | keys (names : List String)

/-- A run is made of registrations by the host and reads by the device. -/
inductive Activity
  | register (registration : Registration)
  | read (read : Read)

namespace Read

def perform : Read → Device Unit
  | leaf root size index => discard (Device.readLeaf root size index)
  | element root size index => discard (Device.readElement root size index)
  | preimage digest => discard (Device.readPreimage digest)
  | position root hash => discard do
      Device.parse Device.readIndexAnswer (← Device.ask (.leafIndex root hash))

end Read

namespace Registration

def perform : Registration → Dialogue Unit
  | preimage bs => discard (Responder.addPreimage bs)
  | list elements => discard (Responder.addList elements)
  | map m => discard (Responder.addMap m)
  | keys names => discard (Responder.addKeyList names)

/-- The byte strings that are registered as such. -/
def preimages : Registration → List Bytes
  | preimage bs => [bs]
  | list _ | map _ | keys _ => []

/-- The lists that are registered. -/
def lists : Registration → List (List Bytes)
  | preimage _ => []
  | list elements => [elements]
  | map m => [m.keys, m.values]
  | keys names => [names.map Text.utf8]

/-- Everything that is hashed for a registration. -/
def hashed (registration : Registration) : List Hashed :=
  registration.preimages.map .bytes ++ registration.lists.flatMap hashedElements

/-- The responder that also knows what is registered.  The queue and the fragments stay as they
are. -/
def effect : Registration → Responder → Responder
  | preimage bs, r => r.withPreimage bs
  | list elements, r => r.withList elements
  | map m, r => (r.withList m.keys).withList m.values
  | keys names, r =>
      let known := r.withList (names.map Text.utf8)
      { known with keyLists := known.keyLists.learn (merkleRoot (names.map Text.utf8)) names }

/-- A registration has its effect even if the number of pairs of a map has no form. -/
theorem after_perform (registration : Registration) (r : Responder) :
    after registration.perform r = registration.effect r := by
  cases registration with
  | preimage bs => rfl
  | list elements =>
      exact (after_discard _ r).trans (after_of_ok (Responder.run_addList elements r))
  | keys names =>
      exact (after_discard _ r).trans (after_of_ok (Responder.run_addKeyList names r))
  -- A map whose count cannot be written leaves the responder as it is, also in its effect.
  | map m =>
      refine (after_discard _ r).trans ?_
      have hadd := Responder.run_addMap m r
      cases hcommitment : mapCommitment m with
      | ok commitment =>
          rw [hcommitment] at hadd
          exact after_of_ok hadd
      | error failure =>
          rw [hcommitment] at hadd
          exact after_of_error hadd

/-- What is kept by learning byte strings, lists and names is kept by a registration. -/
theorem effect_keeps {P : Responder → Prop} (registration : Registration) {r : Responder}
    (hpreimage : ∀ bs ∈ registration.preimages, ∀ r, P r → P (r.withPreimage bs))
    (hlist : ∀ xs ∈ registration.lists, ∀ r : Responder, P r → P (r.withList xs))
    (hnames : ∀ (r : Responder) (keyLists : Known (List String)),
      P r → P { r with keyLists := keyLists }) (h : P r) : P (registration.effect r) := by
  cases registration with
  | preimage bs => exact hpreimage bs (by simp [preimages]) r h
  | list elements => exact hlist elements (by simp [lists]) r h
  | map m =>
      have hkeys := hlist m.keys (by simp [lists]) r h
      exact hlist m.values (by simp [lists]) _ hkeys
  | keys names => exact hnames _ _ (hlist (names.map Text.utf8) (by simp [lists]) r h)

end Registration

namespace Activity

/-- The responder after an activity, whether that ended in a value or not. -/
def next : Activity → Responder → Responder
  | register registration, s => Step.after registration.perform s
  | read r, s => Step.after r.perform s

def preimages : Activity → List Bytes
  | register registration => registration.preimages
  | read _ => []

def lists : Activity → List (List Bytes)
  | register registration => registration.lists
  | read _ => []

def hashed : Activity → List Hashed
  | register registration => registration.hashed
  | read _ => []

end Activity

/-- A new responder after a list of activities. -/
def play (activities : List Activity) : Responder :=
  activities.foldl (fun r activity => activity.next r) {}

theorem play_append_singleton (activities : List Activity) (activity : Activity) :
    play (activities ++ [activity]) = activity.next (play activities) := by
  rw [play, List.foldl_append]
  rfl

/-! ## Reads change nothing -/

namespace Device

theorem run_ask_of_not_hasForm {q : Query} (h : ¬ q.HasForm) (r : Responder) :
    (ask q).run r = .error .unwritable r := by
  show ask q r = _
  unfold ask
  rw [if_neg h]

theorem run_ask_of_error {q : Query} {r s : Responder} {failure : Failure} (hform : q.HasForm)
    (h : (Responder.answer q).run r = .error failure s) :
    (ask q).run r = .error (.refused (Query.blame (q.toBytes.headD 0) failure)) s := by
  have hexecute : (Responder.execute q.toBytes).run r =
      .error (Query.blame (q.toBytes.headD 0) failure) s := by
    rw [Responder.run_execute_toBytes hform, h]
  show ask q r = _
  unfold ask
  rw [if_pos hform, show Responder.execute q.toBytes r = _ from hexecute]

end Device

/-- From an empty queue, over lists that were built from elements. -/
structure Regular (r : Responder) : Prop where
  idle : r.queue = []
  built : ∀ root list, r.lists.lookup root = some list → ∃ xs, list = .ofElements xs

namespace Regular

variable {r : Responder} (h : Regular r)

include h

theorem after_readPreimage (digest : Bytes) : after (Device.readPreimage digest) r = r := by
  by_cases hform : (Query.preimage digest).HasForm
  · have hanswer := Responder.run_answerPreimage digest r
    cases hknown : r.preimages.lookup digest with
    | none =>
        rw [hknown] at hanswer
        exact after_of_error (run_bind_of_error (Device.run_ask_of_error hform hanswer))
    | some preimage =>
        rw [hknown] at hanswer
        by_cases hlength : preimage.length < 2 ^ 64
        · exact after_of_ok (Device.run_readPreimage h.idle hform hknown hlength)
        · simp only [if_neg hlength] at hanswer
          exact after_of_error (run_bind_of_error (Device.run_ask_of_error hform hanswer))
  · exact after_of_error (run_bind_of_error (Device.run_ask_of_not_hasForm hform r))

theorem after_readLeaf (root : Bytes) (size index : Nat) :
    after (Device.readLeaf root size index) r = r := by
  by_cases hform : (Query.leafProof root size index).HasForm
  · have hanswer := Responder.run_answerLeafProof root size index r
    cases hknown : r.lists.lookup root with
    | none =>
        rw [hknown] at hanswer
        exact after_of_error (run_bind_of_error (Device.run_ask_of_error hform hanswer))
    | some list =>
        rw [hknown] at hanswer
        -- Whatever is refused is refused before anything is queued.
        by_cases hplace : index < list.leaves.length ∧ list.size = size
        · obtain ⟨hindex, rfl⟩ := hplace
          obtain ⟨xs, rfl⟩ := h.built root list hknown
          exact after_of_ok (Device.run_readLeaf h.idle hform.1 hknown
            length_of_mem_map_elementHash hform.2.1 hindex)
        · simp only [dif_neg hplace] at hanswer
          exact after_of_error (run_bind_of_error (Device.run_ask_of_error hform hanswer))
  · exact after_of_error (run_bind_of_error (Device.run_ask_of_not_hasForm hform r))

theorem after_readElement (root : Bytes) (size index : Nat) :
    after (Device.readElement root size index) r = r := by
  apply after_bind_eq_self (h.after_readLeaf root size index)
  rintro ⟨leaf, proof⟩
  exact after_bind_eq_self (h.after_readPreimage leaf) fun _ => rfl

end Regular

theorem after_parse {α : Type} (reader : Reader α) (answer : Bytes) (r : Responder) :
    after (Device.parse reader answer) r = r := by
  unfold Device.parse
  split <;> rfl

theorem after_answerLeafIndex (root leaf : Bytes) (r : Responder) :
    after (Responder.answerLeafIndex root leaf) r = r := by
  unfold Responder.answerLeafIndex
  apply after_bind_eq_self rfl
  intro s
  cases s.lists.lookup root with
  | none => rfl
  | some list =>
      cases hindex : list.indexOf leaf with
      | ok index =>
          simp only [hindex]
          exact after_bind_eq_self (after_ofExcept _ r) fun _ => rfl
      | error failure =>
          simp only [hindex]
          exact after_bind_eq_self (after_ofExcept _ r) fun _ => rfl

theorem after_ask_leafIndex (root leaf : Bytes) (r : Responder) :
    after (Device.ask (.leafIndex root leaf)) r = r := by
  by_cases hform : (Query.leafIndex root leaf).HasForm
  · have hanswer : after (Responder.answer (.leafIndex root leaf)) r = r :=
      after_answerLeafIndex root leaf r
    cases hrun : (Responder.answer (.leafIndex root leaf)).run r with
    | ok bs s =>
        rw [after_of_ok (Device.run_ask_of_ok hform hrun)]
        rwa [after_of_ok hrun] at hanswer
    | error failure s =>
        rw [after_of_error (Device.run_ask_of_error hform hrun)]
        rwa [after_of_error hrun] at hanswer
  · exact after_of_error (Device.run_ask_of_not_hasForm hform r)

namespace Regular

/-- No read changes a regular responder. -/
theorem next_read {r : Responder} (h : Regular r) (read : Read) :
    (Activity.read read).next r = r := by
  unfold Activity.next
  cases read with
  | leaf root size index => exact (after_discard _ r).trans (h.after_readLeaf root size index)
  | element root size index => exact (after_discard _ r).trans (h.after_readElement root size index)
  | preimage digest => exact (after_discard _ r).trans (h.after_readPreimage digest)
  | position root leaf =>
      refine (after_discard _ r).trans ?_
      exact after_bind_eq_self (after_ask_leafIndex root leaf r) fun answer =>
        after_parse _ answer r

end Regular

/-! ## Registering keeps what is known -/

/-- The queue is empty, and some lists and byte strings of a run are known.  This is the
invariant that the activities preserve. -/
structure Sound (run : List Hashed) (lists : List (List Bytes)) (preimages : List Bytes)
    (r : Responder) : Prop extends Regular r where
  listsHashed : ∀ xs ∈ lists, ∀ a ∈ hashedElements xs, a ∈ run
  preimagesHashed : ∀ p ∈ preimages, .bytes p ∈ run
  knowsLists : ∀ xs ∈ lists, r.KnowsList xs
  knowsPreimages : ∀ p ∈ preimages, r.KnowsPreimage p

namespace Sound

theorem new (run : List Hashed) : Sound run [] [] {} where
  idle := rfl
  built := by
    intro root list hlookup
    cases hlookup
  listsHashed := by simp
  preimagesHashed := by simp
  knowsLists := by simp
  knowsPreimages := by simp

variable {run : List Hashed} (hrun : NoCollision run) {lists : List (List Bytes)}
  {preimages : List Bytes} {r : Responder}

include hrun

theorem withPreimage (h : Sound run lists preimages r) {p : Bytes} (hp : .bytes p ∈ run) :
    Sound run lists (preimages ++ [p]) (r.withPreimage p) where
  idle := h.idle
  built := h.built
  listsHashed := h.listsHashed
  preimagesHashed := by
    intro q hq
    rcases List.mem_append.mp hq with hq | hq
    · exact h.preimagesHashed q hq
    · rwa [List.mem_singleton.mp hq]
  knowsLists := fun xs hxs => (h.knowsLists xs hxs).withPreimage hrun (h.listsHashed xs hxs) hp
  knowsPreimages := by
    intro q hq
    rcases List.mem_append.mp hq with hq | hq
    · exact (h.knowsPreimages q hq).withPreimage hrun (h.preimagesHashed q hq) hp
    · rw [List.mem_singleton.mp hq]
      exact Responder.knowsPreimage_withPreimage r p

theorem withList (h : Sound run lists preimages r) {ys : List Bytes}
    (hys : ∀ a ∈ hashedElements ys, a ∈ run) :
    Sound run (lists ++ [ys]) preimages (r.withList ys) where
  idle := by rw [Responder.queue_withList, h.idle]
  built := by
    intro root list hlookup
    rw [Responder.lists_withList] at hlookup
    rcases Known.of_lookup_learn hlookup with rfl | hlookup
    · exact ⟨ys, rfl⟩
    · exact h.built root list hlookup
  listsHashed := by
    intro xs hxs
    rcases List.mem_append.mp hxs with hxs | hxs
    · exact h.listsHashed xs hxs
    · rwa [List.mem_singleton.mp hxs]
  preimagesHashed := h.preimagesHashed
  knowsLists := by
    intro xs hxs
    rcases List.mem_append.mp hxs with hxs | hxs
    · exact (h.knowsLists xs hxs).withList hrun hys (h.listsHashed xs hxs)
    · rw [List.mem_singleton.mp hxs]
      exact Responder.knowsList_withList hrun hys
  knowsPreimages := fun p hp =>
    (h.knowsPreimages p hp).withList hrun hys (h.preimagesHashed p hp)

/-- A registration adds what it registers to what is known.  What was known before stays known,
since the strings of the run do not collide. -/
theorem next_register (h : Sound run lists preimages r) {registration : Registration}
    (hhashed : ∀ a ∈ registration.hashed, a ∈ run) :
    Sound run (lists ++ registration.lists) (preimages ++ registration.preimages)
      ((Activity.register registration).next r) := by
  have hlist : ∀ xs ∈ registration.lists, ∀ a ∈ hashedElements xs, a ∈ run := fun xs hxs a ha =>
    hhashed a (List.mem_append_right _ (List.mem_flatMap.mpr ⟨xs, hxs, ha⟩))
  rw [show (Activity.register registration).next r = _ from registration.after_perform r]
  cases registration with
  | preimage bs =>
      have hbs : .bytes bs ∈ run := hhashed _ (by simp [Registration.hashed, Registration.preimages])
      rw [Registration.lists, List.append_nil]
      exact h.withPreimage hrun hbs
  | list elements =>
      rw [Registration.preimages, List.append_nil]
      exact h.withList hrun (hlist elements (by simp [Registration.lists]))
  | map m =>
      have hkeys := h.withList hrun (hlist m.keys (by simp [Registration.lists]))
      have hvalues := hkeys.withList hrun (hlist m.values (by simp [Registration.lists]))
      rw [Registration.preimages, List.append_nil]
      rwa [List.append_assoc] at hvalues
  | keys names =>
      have hlist := h.withList hrun (hlist (names.map Text.utf8) (by simp [Registration.lists]))
      rw [Registration.preimages, List.append_nil]
      -- The names are kept a second time by themselves, and no reading depends on that.
      exact { hlist with
        knowsLists := fun xs hxs =>
          ⟨(hlist.knowsLists xs hxs).list, (hlist.knowsLists xs hxs).elements⟩ }

end Sound

/-- After every list of activities all that was registered is known.  The induction is on the
activities, with the run of everything that is hashed in them. -/
theorem sound_play {run : List Hashed} (hrun : NoCollision run) (activities : List Activity)
    (hhashed : ∀ a ∈ activities.flatMap Activity.hashed, a ∈ run) :
    Sound run (activities.flatMap Activity.lists) (activities.flatMap Activity.preimages)
      (play activities) := by
  induction activities using List.reverseRecOn with
  | nil => exact Sound.new run
  | append_singleton activities activity ih =>
      have hsound := ih fun a ha => hhashed a (by
        rw [List.flatMap_append]
        exact List.mem_append_left _ ha)
      have hactivity : ∀ a ∈ activity.hashed, a ∈ run := fun a ha => hhashed a (by
        rw [List.flatMap_append, List.flatMap_singleton]
        exact List.mem_append_right _ ha)
      rw [play_append_singleton, List.flatMap_append, List.flatMap_append,
        List.flatMap_singleton, List.flatMap_singleton]
      -- A registration adds what it registers, and a read leaves everything as it is.
      cases activity with
      | register registration => exact hsound.next_register hrun hactivity
      | read read =>
          rw [hsound.toRegular.next_read, Activity.lists, Activity.preimages, List.append_nil,
            List.append_nil]
          exact hsound

/-! ## Reading back -/

/-- An element of a known list is read back with a proof that the root accepts. -/
theorem run_readElement {r : Responder} (hidle : r.queue = []) {xs : List Bytes}
    (hknown : r.KnowsList xs) (hsize : xs.length < 2 ^ 64) {i : Nat} (hi : i < xs.length)
    (helement : xs[i].length < 2 ^ 64 - 1) :
    (Device.readElement (merkleRoot xs) xs.length i).run r =
        .ok { leaf := elementHash xs[i], proof := Device.elementProof xs i,
              preimage := 0x00 :: xs[i] } r ∧
      verifyProof (merkleRoot xs) xs.length i (elementHash xs[i]) (Device.elementProof xs i) =
        .ok true := by
  obtain ⟨hread, hverify⟩ := Device.run_readLeaf_elements hidle hknown.list hsize hi
  have hpreimage := Device.run_readPreimage_leaf hidle
    (hknown.elements xs[i] (List.getElem_mem hi)) helement
  refine ⟨?_, hverify⟩
  rw [Device.readElement, run_bind_of_ok hread, run_bind_of_ok hpreimage]
  rfl

/-- Whatever was registered and read before, each element of each registered list, and each
registered byte string, is read back whole, and the queue is empty before and after. -/
theorem retrieval (activities : List Activity)
    (h : NoCollision (activities.flatMap Activity.hashed)) :
    (play activities).queue = [] ∧
    (∀ xs ∈ activities.flatMap Activity.lists, xs.length < 2 ^ 64 →
      (∀ x ∈ xs, x.length < 2 ^ 64 - 1) → ∀ i (hi : i < xs.length), ∃ proof,
        (Device.readElement (merkleRoot xs) xs.length i).run (play activities) =
          .ok { leaf := elementHash xs[i], proof, preimage := 0x00 :: xs[i] } (play activities) ∧
        verifyProof (merkleRoot xs) xs.length i (elementHash xs[i]) proof = .ok true) ∧
    ∀ p ∈ activities.flatMap Activity.preimages, p.length < 2 ^ 64 →
      (Device.readPreimage (sha256 p)).run (play activities) = .ok p (play activities) := by
  have hsound := sound_play h activities fun _ ha => ha
  -- The responder is idle behind every activity, so a read starts from an empty queue.
  refine ⟨hsound.idle, ?_, ?_⟩
  · intro xs hxs hsize helements i hi
    exact ⟨_, run_readElement hsound.idle (hsound.knowsLists xs hxs) hsize hi
      (helements xs[i] (List.getElem_mem hi))⟩
  · intro p hp hlength
    exact Device.run_readPreimage hsound.idle (length_sha256 p) (hsound.knowsPreimages p hp)
      hlength

/-- A list, a map, keys and a byte string, with reads in between, are all read back. -/
theorem retrieval_of_mixed_activities :
    let activities : List Activity :=
      [.register (.list [[1, 2], [], [3]]), .read (.element (merkleRoot [[1, 2], [], [3]]) 3 2),
        .register (.map (.ofPairs [([7], [1, 2]), ([5], [])])), .register (.preimage [9, 9]),
        .read (.preimage (sha256 [9])), .register (.keys ["k"])]
    NoCollision (activities.flatMap Activity.hashed) ∧
    (∃ proof,
      (Device.readElement (merkleRoot [[1, 2], [], [3]]) 3 2).run (play activities) =
        .ok { leaf := elementHash [3], proof, preimage := [0, 3] } (play activities) ∧
      verifyProof (merkleRoot [[1, 2], [], [3]]) 3 2 (elementHash [3]) proof = .ok true) ∧
    (Device.readPreimage (sha256 [9, 9])).run (play activities) =
      .ok [9, 9] (play activities) := by
  intro activities
  have hrun : NoCollision (activities.flatMap Activity.hashed) := by decide +kernel
  obtain ⟨-, hlists, hpreimages⟩ := retrieval activities hrun
  refine ⟨hrun, ?_, ?_⟩
  · exact hlists [[1, 2], [], [3]] (by simp [activities, Activity.lists, Registration.lists])
      (by decide) (by decide) 2 (by decide)
  · exact hpreimages [9, 9] (by simp [activities, Activity.preimages, Registration.preimages])
      (by decide)

end SignerHost

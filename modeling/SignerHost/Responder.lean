import SignerHost.Merkle.Tree
import SignerHost.Query
import SignerHost.Text.Basic

/-!
# Answering the device

A responder knows byte strings by their digest and lists by their Merkle root.  It answers the
queries of the device from what it knows, keeps the elements that did not fit into an answer, and
collects the fragments that the device hands over.

* Registering adds knowledge and never fails, except that a map of `2 ^ 64` pairs has no count.
* An answer has at most 255 bytes.  What does not fit is queued for `Query.moreElements`: a byte
  string byte by byte, a proof digest by digest.
* A query that cannot be answered leaves the responder as it was.
-/

namespace SignerHost

/-- What is known, each key once.  The latest pair comes first. -/
abbrev Known (α : Type) := List (Bytes × α)

namespace Known

/-- Adds a pair in place of any pair with the same key.  All other pairs keep their order. -/
def learn {α : Type} (known : Known α) (key : Bytes) (value : α) : Known α :=
  (key, value) :: if (known.lookup key).isSome then known.filter fun p => p.1 ≠ key else known

end Known

/-- What is known, what is queued, and what was handed over.  The lists of keys are kept for
callers; no answer depends on them. -/
structure Responder where
  preimages : Known Bytes := []
  lists : Known MerkleList := []
  keyLists : Known (List String) := []
  queue : List Bytes := []
  yielded : List Bytes := []

/-- A step of the conversation with the device: it ends in a value or a failure, and leaves a
responder either way. -/
abbrev Dialogue := EStateM Failure Responder

namespace Responder

/-- The largest length of an answer.  It is the largest length of the data of a command. -/
def maxAnswer : Nat := 255

/-! ## Registering -/

/-- Registers a byte string under its digest.  A byte string with the same digest is replaced. -/
def addPreimage (preimage : Bytes) : Dialogue Bytes := fun r =>
  let digest := sha256 preimage
  .ok digest { r with preimages := r.preimages.learn digest preimage }

/-- Registers a list and each of its elements, behind the zero byte of a leaf.  Registering it
again leaves nothing twice. -/
def addList (elements : List Bytes) : Dialogue Bytes := do
  elements.forM fun e => do discard (addPreimage (0x00 :: e))
  let list := MerkleList.ofElements elements
  modify fun r => { r with lists := r.lists.learn list.root list }
  return list.root

/-- Registers the keys of a wallet.  The list of the texts is kept too, under the same root. -/
def addKeyList (keys : List String) : Dialogue Bytes := do
  let root ← addList (keys.map Text.utf8)
  modify fun r => { r with keyLists := r.keyLists.learn root keys }
  return root

/-- Registers the keys and the values of a map as two lists, and gives its commitment. -/
def addMap (m : ByteMap) : Dialogue Bytes := do
  discard (addList m.keys)
  discard (addList m.values)
  MonadExcept.ofExcept (mapCommitment m)

/-! ## Answering -/

/-- A count or a length as one byte.  A number of 256 or more has none. -/
def oneByte (n : Nat) : Except Failure Bytes :=
  if n < 256 then .ok [UInt8.ofNat n] else .error .overflow

/-- Keeps a fragment behind those that were handed over before.  The answer is empty. -/
def answerYield (fragment : Bytes) : Dialogue Bytes := fun r =>
  .ok [] { r with yielded := r.yielded ++ [fragment] }

/-- The total length, the length of the first part, and the first part.  The bytes that do not
fit are queued one by one, behind what is queued already. -/
def answerPreimage (digest : Bytes) : Dialogue Bytes := do
  let some preimage := (← get).preimages.lookup digest
    | throw (.protocol (.unknownPreimage digest))
  let total ← MonadExcept.ofExcept (CompactSize.write preimage.length)
  let first := min (maxAnswer - total.length - 1) preimage.length
  let count ← MonadExcept.ofExcept (oneByte first)
  modify fun r => { r with queue := r.queue ++ (preimage.drop first).map fun b => [b] }
  return total ++ count ++ preimage.take first

/-- The leaf, the length of its proof, the number of proof elements that follow, and these.  The
rest of the proof is queued.  While anything is queued, no proof is given out. -/
def answerLeafProof (root : Bytes) (size index : Nat) : Dialogue Bytes := do
  let some list := (← get).lists.lookup root | throw (.protocol (.unknownRoot root))
  if size ≤ index ∨ list.size ≠ size then throw (.protocol .indexOrSize)
  if (← get).queue ≠ [] then throw (.protocol .elementsPending)
  let proof ← MonadExcept.ofExcept (list.prove index)
  let first := min ((maxAnswer - 32 - 1 - 1) / 32) proof.length
  let leaf ← MonadExcept.ofExcept (list.get index)
  let total ← MonadExcept.ofExcept (oneByte proof.length)
  let count ← MonadExcept.ofExcept (oneByte first)
  modify fun r => { r with queue := r.queue ++ proof.drop first }
  return leaf ++ total ++ count ++ (proof.take first).flatten

/-- Whether the list holds the leaf, and its first position or zero.  A leaf that the list does
not hold is no failure. -/
def answerLeafIndex (root leaf : Bytes) : Dialogue Bytes := do
  let some list := (← get).lists.lookup root | throw (.protocol (.unknownRoot root))
  match list.indexOf leaf with
  | .ok index =>
      let position ← MonadExcept.ofExcept (CompactSize.write index)
      return 1 :: position
  | .error _ =>
      let position ← MonadExcept.ofExcept (CompactSize.write 0)
      return 0 :: position

/-- The number of queued elements that fit, their length, and the elements.  Elements of
different lengths cannot be told apart in an answer, so they are refused. -/
def answerMoreElements : Dialogue Bytes := do
  let queue := (← get).queue
  let first :: _ := queue | throw (.protocol .noElements)
  let width := first.length
  if queue.any fun e => e.length ≠ width then throw (.protocol .unevenElements)
  let fitting := if width = 0 then queue.length else min ((maxAnswer - 2) / width) queue.length
  let count ← MonadExcept.ofExcept (oneByte fitting)
  let length ← MonadExcept.ofExcept (oneByte width)
  modify fun r => { r with queue := r.queue.drop fitting }
  return count ++ length ++ (queue.take fitting).flatten

/-- The answer to a query, by its kind. -/
def answer : Query → Dialogue Bytes
  | .yield fragment => answerYield fragment
  | .preimage digest => answerPreimage digest
  | .leafProof root size index => answerLeafProof root size index
  | .leafIndex root leaf => answerLeafIndex root leaf
  | .moreElements => answerMoreElements

/-- A number or a length that has no form makes the query a malformed one.  The code is the one
that the query starts with. -/
def blamed (code : UInt8) (step : Dialogue Bytes) : Dialogue Bytes := fun r =>
  match step r with
  | .ok bs r => .ok bs r
  | .error failure r => .error (Query.blame code failure) r

/-- The answer to the bytes of a query.  A query that cannot be read is refused before the
responder is looked at. -/
def execute (request : Bytes) : Dialogue Bytes := do
  let query ← MonadExcept.ofExcept (Query.parse request)
  blamed (request.headD 0) (answer query)

/-- Gives the fragments collected so far and forgets them. -/
def takeYielded : Dialogue (List Bytes) := fun r => .ok r.yielded { r with yielded := [] }

end Responder

end SignerHost

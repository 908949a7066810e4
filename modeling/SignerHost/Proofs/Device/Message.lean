import SignerHost.Proofs.Client.Operation
import SignerHost.Proofs.Device.Lookup
import SignerHost.Proofs.KeyPath

/-!
# A device is shown the whole message

A message that is to be signed is sent as a commitment: its length, and the root of the list of its
chunks.  The device computes the number of chunks from the length, and asks for each of them.

* `MessageRequest` is what the data of the command stands for, and `readMessageRequest` reads it.
* `readMessage` is the program that reads the chunks.
* `flatten_chunks`, `length_getElem_chunks` and `length_chunk_mem` say what the chunks are.
* `Shows` is what a device gets to see; `signMessage_shows_message` says so of every call.
-/

namespace SignerHost

open Step

/-! ## Chunks -/

theorem length_chunks (message : Bytes) :
    (chunks message).length = (message.length + 63) / 64 := by
  rw [chunks, List.length_map, List.length_range]
  rfl

theorem getElem_chunks {message : Bytes} {i : Nat} (hi : i < (chunks message).length) :
    (chunks message)[i] = (message.drop (64 * i)).take 64 := by
  simp [chunks, chunkLength]

/-- The first chunks are the beginning of the message. -/
theorem flatten_map_chunk (message : Bytes) (count : Nat) :
    ((List.range count).map fun i => (message.drop (64 * i)).take 64).flatten =
      message.take (64 * count) := by
  induction count with
  | zero => rfl
  | succ count ih =>
      rw [List.range_succ, List.map_append, List.flatten_append, ih, List.map_singleton,
        List.flatten_singleton, Nat.mul_succ, List.take_add]

theorem flatten_chunks (message : Bytes) : (chunks message).flatten = message := by
  have hall : message.length ≤ 64 * ((message.length + 63) / 64) := by omega
  exact (flatten_map_chunk message _).trans (List.take_of_length_le hall)

/-- Every chunk but the last one is full. -/
theorem length_getElem_chunks {message : Bytes} {i : Nat} (hi : i + 1 < (chunks message).length) :
    ((chunks message)[i]).length = 64 := by
  rw [length_chunks] at hi
  rw [getElem_chunks, List.length_take, List.length_drop]
  omega

/-- No chunk is empty or longer than the others, the last one included. -/
theorem length_chunk_mem {message : Bytes} {chunk : Bytes} (h : chunk ∈ chunks message) :
    0 < chunk.length ∧ chunk.length ≤ 64 := by
  obtain ⟨i, hi, rfl⟩ := List.getElem_of_mem h
  rw [getElem_chunks, List.length_take, List.length_drop]
  rw [length_chunks] at hi
  omega

namespace Device

/-! ## The command -/

/-- What a device is asked to sign with the key at a path. -/
structure MessageRequest where
  steps : List PathStep
  length : Nat
  root : Bytes
  deriving DecidableEq

/-- The steps, the length of the message and the root, and nothing behind them.  It is the reader
of a device that does not know how the data was made. -/
def readMessageRequest : Reader MessageRequest := do
  let steps ← KeyPath.read
  let length ← Field.compactSize
  let root ← Field.bytes 32
  Field.finish
  return { steps, length, root }

/-- By which bytes a request is written.  The length may stand in any form. -/
def MessageRequest.Written (request : MessageRequest) (s : Bytes) : Prop :=
  KeyPath.HasForm request.steps ∧ request.root.length = 32 ∧
    ∃ form, CompactSize.Form request.length form ∧
      s = KeyPath.encode request.steps ++ form ++ request.root

theorem findsAll_readMessageRequest : readMessageRequest.FindsAll MessageRequest.Written := by
  have hlast : (Field.bytes 32).Finds fun bs s => bs.length = 32 ∧ s = bs :=
    Field.finds_bytes (n := 32) (by decide)
  refine (KeyPath.finds_read.bind_all fun steps => Field.finds_compactSize.bind_all fun length =>
    hlast.bind_all fun root => Field.findsAll_finish _).congr fun request s => ?_
  constructor
  · rintro ⟨steps, _, _, rfl, ⟨hsteps, rfl⟩, length, form, _, rfl, hform, root, _, _, rfl,
      ⟨hroot, rfl⟩, rfl, rfl⟩
    exact ⟨hsteps, hroot, form, hform, by simp⟩
  · rintro ⟨hsteps, hroot, form, hform, rfl⟩
    exact ⟨_, _, _, List.append_assoc _ _ _, ⟨hsteps, rfl⟩, _, _, _, rfl, hform, _, _, _,
      (List.append_nil _).symm, ⟨hroot, rfl⟩, rfl, rfl⟩

theorem run_readMessageRequest {path : String} {steps : List PathStep}
    (hpath : KeyPath.parse path = .ok steps) {length : Nat} (hlength : length < 2 ^ 64)
    {root : Bytes} (hroot : root.length = 32) :
    readMessageRequest.run (KeyPath.encode steps ++ CompactSize.encode length ++ root) =
      .ok ⟨steps, length, root⟩ [] :=
  (findsAll_readMessageRequest _ _ _).mpr
    ⟨⟨.of_parse hpath, hroot, _, CompactSize.form_encode hlength, rfl⟩, rfl⟩

/-! ## Reading the message -/

/-- Reads a message of a length in chunks of 64 bytes, each checked against the root.  Its last
chunk may be shorter, and an empty message has none. -/
def readMessage (root : Bytes) (length : Nat) : Device (List Bytes) :=
  (List.range ((length + 63) / 64)).mapM (element root ((length + 63) / 64))

/-- All elements of a known list are read in their order. -/
theorem run_elements {r : Responder} (hidle : r.queue = []) {xs : List Bytes}
    (hsize : xs.length < 2 ^ 64) (hknown : r.KnowsList xs)
    (hshort : ∀ x ∈ xs, x.length < 2 ^ 64 - 1) :
    ((List.range xs.length).mapM (element (merkleRoot xs) xs.length)).run r = .ok xs r := by
  apply run_mapM_of_forall₂
  refine List.forall₂_iff_get.mpr ⟨List.length_range, fun i _ hi => ?_⟩
  rw [List.get_eq_getElem, List.getElem_range]
  exact run_element hidle hsize hi hknown (hshort _ (List.getElem_mem hi))

theorem run_readMessage {r : Responder} (hidle : r.queue = []) {message : Bytes}
    (hlength : message.length < 2 ^ 64) (hknown : r.KnowsList (chunks message)) :
    (readMessage (merkleRoot (chunks message)) message.length).run r =
      .ok (chunks message) r := by
  have hsize : (chunks message).length < 2 ^ 64 := by
    rw [length_chunks]
    omega
  have hshort : ∀ chunk ∈ chunks message, chunk.length < 2 ^ 64 - 1 := fun chunk hchunk =>
    (length_chunk_mem hchunk).2.trans_lt (by decide)
  rw [readMessage, ← length_chunks]
  exact run_elements hidle hsize hknown hshort

end Device

/-- A command and a responder show a message to a device.  The command says the length and the
root, and the responder has every chunk. -/
structure Shows (command : Command) (r : Responder) (steps : List PathStep) (message : Bytes) :
    Prop where
  instruction : command.instruction = .signMessage
  idle : r.queue = []
  /-- The device reads the command to its end, and then the message from the responder. -/
  read : ∃ root parts,
    Device.readMessageRequest.run command.data = .ok ⟨steps, message.length, root⟩ [] ∧
    (Device.readMessage root message.length).run r = .ok parts r ∧
    parts.flatten = message ∧
    parts.length = (message.length + 63) / 64 ∧
    (∀ i (hi : i < parts.length), i + 1 < parts.length → parts[i].length = 64) ∧
    (∀ part ∈ parts, 0 < part.length ∧ part.length ≤ 64) ∧
    (message = [] → root = List.replicate 32 0 ∧ parts = [])

/-- The steps, the length and the root of the chunks show a message beside a responder that knows
the chunks. -/
theorem shows_of_knowsList {path : String} {steps : List PathStep} {message : Bytes}
    {r : Responder} (hpath : KeyPath.parse path = .ok steps) (hlength : message.length < 2 ^ 64)
    (hidle : r.queue = []) (hknown : r.KnowsList (chunks message)) :
    Shows (Command.bitcoin .signMessage (KeyPath.encode steps ++
      CompactSize.encode message.length ++ merkleRoot (chunks message))) r steps message where
  instruction := rfl
  idle := hidle
  read := by
    refine ⟨merkleRoot (chunks message), chunks message,
      Device.run_readMessageRequest hpath hlength (length_merkleRoot _),
      Device.run_readMessage hidle hlength hknown, flatten_chunks message, length_chunks message,
      fun i _ hi => length_getElem_chunks hi, fun part hpart => length_chunk_mem hpart, ?_⟩
    rintro rfl
    exact ⟨merkleRoot_nil, rfl⟩

/-! ## Signing -/

namespace Client

/-- The request of a call for a signature, with the responder that the call prepares for it. -/
theorem signMessage_eq_request (client : Client) {message : Bytes} {path : String}
    {steps : List PathStep} (hpath : KeyPath.parse path = .ok steps)
    (hlength : message.length < 2 ^ 64) :
    ∃ finish, client.signMessage message path =
      client.request (Command.bitcoin .signMessage (KeyPath.encode steps ++
        CompactSize.encode message.length ++ merkleRoot (chunks message)))
        (some (({} : Responder).withList (chunks message))) >>= finish := by
  -- What is prepared and what is sent are known in advance, so only the request is left.
  have hprepare : prepare (Responder.addList (chunks message)) {} =
      pure (merkleRoot (chunks message), ({} : Responder).withList (chunks message)) := by
    rw [prepare_eq, prepared_eq_ok.mpr (Responder.run_addList (chunks message) {})]
    rfl
  have hcommand : Command.signMessage message.length (merkleRoot (chunks message)) path =
      .ok (Command.bitcoin .signMessage (KeyPath.encode steps ++
        CompactSize.encode message.length ++ merkleRoot (chunks message))) := by
    rw [Command.signMessage, hpath, CompactSize.write_ofNat hlength]
    rfl
  rw [signMessage, hprepare, pure_bind]
  simp only [hcommand]
  exact ⟨_, rfl⟩

/-- A call for a signature sends a command that shows exactly the message, whatever the lengths of
the message and of its last chunk are, and answers the device from a responder that knows it. -/
theorem signMessage_shows_message (client : Client) {source : MessageSource} {path : String}
    {steps : List PathStep} (hpath : KeyPath.parse path = .ok steps)
    (hlength : source.content.length < 2 ^ 64)
    (hcollision : NoCollision (hashedElements (chunks source.content))) :
    ∃ command r finish,
      client.sign source path = client.request command (some r) >>= finish ∧
      Shows command r steps source.content := by
  obtain ⟨finish, hcall⟩ := signMessage_eq_request client hpath hlength
  have hknown := Responder.knowsList_withList (r := {}) hcollision fun _ h => h
  have hidle := Responder.queue_withList {} (chunks source.content)
  exact ⟨_, _, finish, hcall, shows_of_knowsList hpath hlength hidle hknown⟩

/-- A message of two equal chunks. -/
def equalChunks : MessageSource := .bytes (List.replicate 128 0x61)

/-- Two chunks with the same leaf are both read, and there is no third and empty one. -/
theorem signMessage_shows_message_of_equal_chunks :
    let steps : List PathStep := [⟨44, true⟩, ⟨1, true⟩, ⟨0, true⟩, ⟨0, false⟩, ⟨7, false⟩]
    KeyPath.parse "m/44'/1'/0h/0/7" = .ok steps ∧ equalChunks.content.length < 2 ^ 64 ∧
      NoCollision (hashedElements (chunks equalChunks.content)) ∧
      ∃ command r finish,
        ({} : Client).sign equalChunks "m/44'/1'/0h/0/7" =
          ({} : Client).request command (some r) >>= finish ∧
        Shows command r steps equalChunks.content := by
  intro steps
  have hpath : KeyPath.parse "m/44'/1'/0h/0/7" = .ok steps := rfl
  have hlength : equalChunks.content.length < 2 ^ 64 := by decide +kernel
  have hcollision : NoCollision (hashedElements (chunks equalChunks.content)) := by decide +kernel
  exact ⟨hpath, hlength, hcollision, signMessage_shows_message {} hpath hlength hcollision⟩

end Client
end SignerHost

import SignerHost.Proofs.Device.Message
import SignerHost.Proofs.Wallet.Serialization

/-!
# The data of a command can be read back

The data of a command puts fields next to each other, with no separators.  Some have a fixed length,
a number has one of four lengths, and a path as many steps as its first byte says.  A device that
reads strictly finds the arguments the command was built from, and nothing behind them.

* `Payload` is what the data says, and `Written` by which bytes it is said.
* `Payload.findsAll_read` says that the reader of an instruction finds exactly these.
* `Order` is a call of a builder, and `Order.Says` what the data says to the device.
* `Order.reads_back` says so of every call, and that no two calls are confused.
-/

namespace SignerHost

open Step Reader

/-- What the data of a command says.  It holds what the device can make use of, in place of what
the caller wrote. -/
inductive Payload
  | version
  | masterFingerprint
  | extendedPubkey (display : Bool) (steps : List PathStep)
  | wallet (serialized : Bytes)
  | walletAddress (display : Bool) (id hmac : Bytes) (change : Bool) (index : Nat)
  | psbt (globalMap : Bytes) (inputCount : Nat) (inputsRoot : Bytes) (outputCount : Nat)
      (outputsRoot id hmac : Bytes)
  | message (request : Device.MessageRequest)
  | answer (data : Bytes)
  deriving DecidableEq

namespace Payload

/-- The instruction that the data belongs to. -/
def instruction : Payload → Instruction
  | version => .getVersion
  | masterFingerprint => .getMasterFingerprint
  | extendedPubkey _ _ => .getExtendedPubkey
  | wallet _ => .registerWallet
  | walletAddress _ _ _ _ _ => .getWalletAddress
  | psbt _ _ _ _ _ _ _ => .signPsbt
  | message _ => .signMessage
  | answer _ => .continueInterrupted

/-- By which bytes the data is written.  A count or a length may stand in any form.  So a payload
may be written in several ways, and still has only one meaning. -/
inductive Written : Payload → Bytes → Prop
  | version : Written version []
  | masterFingerprint : Written masterFingerprint []
  | extendedPubkey (display : Bool) {steps : List PathStep} (hsteps : KeyPath.HasForm steps) :
      Written (extendedPubkey display steps) (Command.flag display :: KeyPath.encode steps)
  | wallet {serialized form : Bytes} (hform : CompactSize.Form serialized.length form) :
      Written (wallet serialized) (form ++ serialized)
  | walletAddress (display change : Bool) {id hmac : Bytes} {index : Nat} (hid : id.length = 32)
      (hhmac : hmac.length = 32) (hindex : index < 256 ^ 4) :
      Written (walletAddress display id hmac change index)
        (Command.flag display :: (id ++ hmac ++ Command.flag change :: Bytes.ofNatBE 4 index))
  | psbt {globalMap inputForm inputsRoot outputForm outputsRoot id hmac : Bytes}
      {inputCount outputCount : Nat} (hglobal : Field.IsCommitment globalMap)
      (hinputs : CompactSize.Form inputCount inputForm) (hinputsRoot : inputsRoot.length = 32)
      (houtputs : CompactSize.Form outputCount outputForm) (houtputsRoot : outputsRoot.length = 32)
      (hid : id.length = 32) (hhmac : hmac.length = 32) :
      Written (psbt globalMap inputCount inputsRoot outputCount outputsRoot id hmac)
        (globalMap ++ inputForm ++ inputsRoot ++ outputForm ++ outputsRoot ++ id ++ hmac)
  | message {request : Device.MessageRequest} {form : Bytes}
      (hsteps : KeyPath.HasForm request.steps) (hform : CompactSize.Form request.length form)
      (hroot : request.root.length = 32) :
      Written (message request) (KeyPath.encode request.steps ++ form ++ request.root)
  | answer (data : Bytes) : Written (answer data) data

/-! ## Reading -/

/-- The flag for showing the key, and the path. -/
def readExtendedPubkey : Reader Payload := do
  let display ← Field.flag
  let steps ← KeyPath.read
  Field.finish
  return extendedPubkey display steps

/-- A serialization behind its length. -/
def readWallet : Reader Payload := do
  let length ← Field.compactSize
  let serialized ← SerializedPolicy.exactly length
  Field.finish
  return wallet serialized

/-- The fields of a question for an address, each of a fixed length. -/
def readWalletAddress : Reader Payload := do
  let display ← Field.flag
  let id ← Field.bytes 32
  let hmac ← Field.bytes 32
  let change ← Field.flag
  let index ← Field.uint 4 .big
  Field.finish
  return walletAddress display id hmac change index

/-- The commitment to the global map and the counts and roots of the others, then the wallet. -/
def readPsbt : Reader Payload := do
  let globalMap ← Field.commitment
  let inputCount ← Field.compactSize
  let inputsRoot ← Field.bytes 32
  let outputCount ← Field.compactSize
  let outputsRoot ← Field.bytes 32
  let id ← Field.bytes 32
  let hmac ← Field.bytes 32
  Field.finish
  return psbt globalMap inputCount inputsRoot outputCount outputsRoot id hmac

/-- Reads the data of an instruction to its end.  A bare code is no instruction of the app. -/
def read : Instruction → Reader Payload
  | .number _ => throw .headerByte
  | .getVersion => do
      Field.finish
      return version
  | .getMasterFingerprint => do
      Field.finish
      return masterFingerprint
  | .getExtendedPubkey => readExtendedPubkey
  | .registerWallet => readWallet
  | .getWalletAddress => readWalletAddress
  | .signPsbt => readPsbt
  | .signMessage => return message (← Device.readMessageRequest)
  | .continueInterrupted => return answer (← Reader.remaining)

theorem finds_bytes : (Field.bytes 32).Finds fun bs s => bs.length = 32 ∧ s = bs :=
  Field.finds_bytes (n := 32) (by decide)

theorem findsAll_readExtendedPubkey :
    readExtendedPubkey.FindsAll fun p s => p.instruction = .getExtendedPubkey ∧ Written p s := by
  refine (Field.finds_flag.bind_all fun display => KeyPath.finds_read.bind_all fun steps =>
    Field.findsAll_finish _).congr fun p s => ?_
  constructor
  · rintro ⟨display, _, _, rfl, rfl, steps, _, _, rfl, ⟨hsteps, rfl⟩, rfl, rfl⟩
    rw [List.append_nil]
    exact ⟨rfl, .extendedPubkey display hsteps⟩
  · rintro ⟨hinstruction, hwritten⟩
    cases hwritten with
    | extendedPubkey display hsteps =>
        exact ⟨display, _, _, by simp, rfl, _, _, _, rfl, ⟨hsteps, rfl⟩, rfl, rfl⟩
    | _ => cases hinstruction

theorem findsAll_readWallet :
    readWallet.FindsAll fun p s => p.instruction = .registerWallet ∧ Written p s := by
  refine (Field.finds_compactSize.bind_all fun length => (SerializedPolicy.finds_exactly length).bind_all
    fun serialized => Field.findsAll_finish _).congr fun p s => ?_
  constructor
  · rintro ⟨_, form, _, rfl, hform, serialized, _, _, rfl, ⟨rfl, rfl⟩, rfl, rfl⟩
    rw [List.append_nil]
    exact ⟨rfl, .wallet hform⟩
  · rintro ⟨hinstruction, hwritten⟩
    cases hwritten with
    | wallet hform => exact ⟨_, _, _, by simp, hform, _, _, _, rfl, ⟨rfl, rfl⟩, rfl, rfl⟩
    | _ => cases hinstruction

theorem findsAll_readWalletAddress :
    readWalletAddress.FindsAll fun p s => p.instruction = .getWalletAddress ∧ Written p s := by
  refine (Field.finds_flag.bind_all fun display => finds_bytes.bind_all fun id =>
    finds_bytes.bind_all fun hmac => Field.finds_flag.bind_all fun change =>
      (Field.finds_uint (n := 4) (by decide)).bind_all fun index =>
        Field.findsAll_finish _).congr fun p s => ?_
  -- The fields stand in a fixed order, and the lengths of the id and of the code in a fixed place.
  constructor
  · rintro ⟨display, _, _, rfl, rfl, id, _, _, rfl, ⟨hid, rfl⟩, hmac, _, _, rfl, ⟨hhmac, rfl⟩,
      change, _, _, rfl, rfl, index, _, _, rfl, ⟨hindex, rfl⟩, rfl, rfl⟩
    refine ⟨rfl, ?_⟩
    have hwritten := Written.walletAddress display change hid hhmac hindex
    simpa using hwritten
  · rintro ⟨hinstruction, hwritten⟩
    cases hwritten with
    | walletAddress display change hid hhmac hindex =>
        exact ⟨display, _, _, by simp, rfl, _, _, _, rfl, ⟨hid, rfl⟩, _, _, _, rfl, ⟨hhmac, rfl⟩,
          change, _, _, rfl, rfl, _, _, _, rfl, ⟨hindex, rfl⟩, rfl, rfl⟩
    | _ => cases hinstruction

theorem findsAll_readPsbt :
    readPsbt.FindsAll fun p s => p.instruction = .signPsbt ∧ Written p s := by
  refine (Field.finds_commitment.bind_all fun globalMap =>
    Field.finds_compactSize.bind_all fun inputCount => finds_bytes.bind_all fun inputsRoot =>
      Field.finds_compactSize.bind_all fun outputCount => finds_bytes.bind_all fun outputsRoot =>
        finds_bytes.bind_all fun id => finds_bytes.bind_all fun hmac =>
          Field.findsAll_finish _).congr fun p s => ?_
  -- The commitment and the counts have lengths of their own, and the parts between them have one.
  constructor
  · rintro ⟨globalMap, _, _, rfl, ⟨rfl, hglobal⟩, inputCount, _, _, rfl, hinputs,
      inputsRoot, _, _, rfl, ⟨hinputsRoot, rfl⟩, outputCount, _, _, rfl, houtputs,
      outputsRoot, _, _, rfl, ⟨houtputsRoot, rfl⟩, id, _, _, rfl, ⟨hid, rfl⟩,
      hmac, _, _, rfl, ⟨hhmac, rfl⟩, rfl, rfl⟩
    refine ⟨rfl, ?_⟩
    have hwritten := Written.psbt hglobal hinputs hinputsRoot houtputs houtputsRoot hid hhmac
    simpa using hwritten
  · rintro ⟨hinstruction, hwritten⟩
    cases hwritten with
    | psbt hglobal hinputs hinputsRoot houtputs houtputsRoot hid hhmac =>
        exact ⟨_, _, _, by simp, ⟨rfl, hglobal⟩, _, _, _, rfl, hinputs,
          _, _, _, rfl, ⟨hinputsRoot, rfl⟩, _, _, _, rfl, houtputs,
          _, _, _, rfl, ⟨houtputsRoot, rfl⟩, _, _, _, rfl, ⟨hid, rfl⟩,
          _, _, _, rfl, ⟨hhmac, rfl⟩, rfl, rfl⟩
    | _ => cases hinstruction

/-- The reader of an instruction finds what is written for it, and nothing else. -/
theorem findsAll_read (i : Instruction) :
    (read i).FindsAll fun p s => p.instruction = i ∧ Written p s := by
  -- One reader for each instruction, and of the payloads only those of this instruction count.
  cases i with
  | number code =>
      intro p s rest
      constructor
      · intro h
        cases h
      · rintro ⟨⟨hinstruction, hwritten⟩, -⟩
        cases hwritten <;> cases hinstruction
  | getVersion =>
      refine (Field.findsAll_finish version).congr fun p s => ?_
      constructor
      · rintro ⟨rfl, rfl⟩
        exact ⟨rfl, .version⟩
      · rintro ⟨hinstruction, hwritten⟩
        cases hwritten with
        | version => exact ⟨rfl, rfl⟩
        | _ => cases hinstruction
  | getMasterFingerprint =>
      refine (Field.findsAll_finish masterFingerprint).congr fun p s => ?_
      constructor
      · rintro ⟨rfl, rfl⟩
        exact ⟨rfl, .masterFingerprint⟩
      · rintro ⟨hinstruction, hwritten⟩
        cases hwritten with
        | masterFingerprint => exact ⟨rfl, rfl⟩
        | _ => cases hinstruction
  | getExtendedPubkey => exact findsAll_readExtendedPubkey
  | registerWallet => exact findsAll_readWallet
  | getWalletAddress => exact findsAll_readWalletAddress
  | signPsbt => exact findsAll_readPsbt
  | signMessage =>
      refine (Device.findsAll_readMessageRequest.map message).congr fun p s => ?_
      constructor
      · rintro ⟨request, ⟨hsteps, hroot, form, hform, rfl⟩, rfl⟩
        exact ⟨rfl, .message hsteps hform hroot⟩
      · rintro ⟨hinstruction, hwritten⟩
        cases hwritten with
        | message hsteps hform hroot => exact ⟨_, ⟨hsteps, hroot, _, hform, rfl⟩, rfl⟩
        | _ => cases hinstruction
  | continueInterrupted =>
      refine (findsAll_remaining.map answer).congr fun p s => ?_
      constructor
      · rintro ⟨data, rfl, rfl⟩
        exact ⟨rfl, .answer _⟩
      · rintro ⟨hinstruction, hwritten⟩
        cases hwritten with
        | answer => exact ⟨_, rfl, rfl⟩
        | _ => cases hinstruction

end Payload

/-! ## The builders -/

/-- A call of a builder.  The arguments are those of the caller, in or out of their ranges. -/
inductive Order
  | version
  | masterFingerprint
  | extendedPubkey (path : String) (display : Bool)
  | registerWallet (wallet : Wallet)
  | walletAddress (wallet : Wallet) (hmac : Option Bytes) (index : Int) (change display : Bool)
  | signPsbt (commitments : PsbtCommitments) (wallet : Wallet) (hmac : Option Bytes)
  | signMessage (length : Int) (root : Bytes) (path : String)
  | answer (data : Bytes)

namespace Order

/-- The command of a call, or why its arguments have no form. -/
def build : Order → Except Failure Command
  | version => .ok Command.getVersion
  | masterFingerprint => .ok Command.getMasterFingerprint
  | extendedPubkey path display => Command.getExtendedPubkey path display
  | registerWallet wallet => Command.registerWallet wallet
  | walletAddress wallet hmac index change display =>
      Command.getWalletAddress wallet hmac index change display
  | signPsbt commitments wallet hmac => Command.signPsbt commitments wallet hmac
  | signMessage length root path => Command.signMessage length root path
  | answer data => .ok (Command.continueInterrupted data)

/-- What a call with arguments in their ranges says to the device.  A wallet is said by its id,
and a missing registration code by 32 zero bytes. -/
inductive Says : Order → Payload → Prop
  | version : Says version .version
  | masterFingerprint : Says masterFingerprint .masterFingerprint
  | extendedPubkey {path : String} {steps : List PathStep} (hpath : KeyPath.parse path = .ok steps)
      (display : Bool) : Says (extendedPubkey path display) (.extendedPubkey display steps)
  | registerWallet {wallet : Wallet} {serialized : Bytes}
      (hwallet : wallet.serialize = .ok serialized) (hlength : serialized.length < 2 ^ 64) :
      Says (registerWallet wallet) (.wallet serialized)
  | walletAddress {wallet : Wallet} {id : Bytes} (hid : wallet.id = .ok id) {hmac : Option Bytes}
      (hhmac : ∀ code ∈ hmac, code.length = 32) {index : Nat} (hindex : index < 2 ^ 32)
      (change display : Bool) :
      Says (walletAddress wallet hmac index change display)
        (.walletAddress display id (Command.hmacField hmac) change index)
  | signPsbt {globalMap inputsRoot outputsRoot : Bytes} {inputCount outputCount : Nat}
      (hglobal : Field.IsCommitment globalMap) (hinputs : inputCount < 2 ^ 64)
      (hinputsRoot : inputsRoot.length = 32) (houtputs : outputCount < 2 ^ 64)
      (houtputsRoot : outputsRoot.length = 32) {wallet : Wallet} {id : Bytes}
      (hid : wallet.id = .ok id) {hmac : Option Bytes} (hhmac : ∀ code ∈ hmac, code.length = 32) :
      Says (signPsbt ⟨globalMap, inputCount, inputsRoot, outputCount, outputsRoot⟩ wallet hmac)
        (.psbt globalMap inputCount inputsRoot outputCount outputsRoot id (Command.hmacField hmac))
  | signMessage {length : Nat} (hlength : length < 2 ^ 64) {root : Bytes} (hroot : root.length = 32)
      {path : String} {steps : List PathStep} (hpath : KeyPath.parse path = .ok steps) :
      Says (signMessage length root path) (.message ⟨steps, length, root⟩)
  | answer (data : Bytes) : Says (answer data) (.answer data)

/-- The data of the command is written for its instruction. -/
theorem written_of_says {order : Order} {payload : Payload} (h : order.Says payload) :
    ∃ command, order.build = .ok command ∧ command.instruction = payload.instruction ∧
      payload.Written command.data := by
  cases h with
  | version => exact ⟨_, rfl, rfl, .version⟩
  | masterFingerprint => exact ⟨_, rfl, rfl, .masterFingerprint⟩
  | extendedPubkey hpath display =>
      exact ⟨_, bind_eq_ok.mpr ⟨_, hpath, rfl⟩, rfl, .extendedPubkey display (.of_parse hpath)⟩
  | registerWallet hwallet hlength =>
      exact ⟨_, Command.registerWallet_eq_ok.mpr ⟨_, hwallet, hlength, rfl⟩, rfl,
        .wallet (CompactSize.form_encode hlength)⟩
  | @walletAddress wallet id hid hmac hhmac index hindex change display =>
      -- The index is below the bound that the client checks, so it fits.
      have hfits : Bytes.fits 4 (index : Int) = true := Bytes.fits_iff.mpr (by omega)
      have hposition : Command.indexField index = .ok (Bytes.ofNatBE 4 index) := if_pos hfits
      exact ⟨_, bind_eq_ok.mpr ⟨_, hid, bind_eq_ok.mpr ⟨_, hposition, rfl⟩⟩, rfl,
        .walletAddress display change (Wallet.length_of_id hid) (Command.length_hmacField hhmac)
          hindex⟩
  | signPsbt hglobal hinputs hinputsRoot houtputs houtputsRoot hid hhmac =>
      exact ⟨_, bind_eq_ok.mpr ⟨_, CompactSize.write_ofNat hinputs, bind_eq_ok.mpr
        ⟨_, CompactSize.write_ofNat houtputs, bind_eq_ok.mpr ⟨_, hid, rfl⟩⟩⟩, rfl,
        .psbt hglobal (CompactSize.form_encode hinputs) hinputsRoot
          (CompactSize.form_encode houtputs) houtputsRoot (Wallet.length_of_id hid)
          (Command.length_hmacField hhmac)⟩
  | signMessage hlength hroot hpath =>
      exact ⟨_, bind_eq_ok.mpr ⟨_, hpath, bind_eq_ok.mpr ⟨_, CompactSize.write_ofNat hlength, rfl⟩⟩,
        rfl, .message (.of_parse hpath) (CompactSize.form_encode hlength) hroot⟩
  | answer data => exact ⟨_, rfl, rfl, .answer data⟩

/-- A call with arguments in their ranges gives a command, and a strict reader finds in its data
what the call says, with no byte left.  So another call that gives the same data for the same
instruction says the same. -/
theorem reads_back {order : Order} {payload : Payload} (h : order.Says payload) :
    ∃ command, order.build = .ok command ∧
      (Payload.read command.instruction).run command.data = .ok payload [] ∧
      ∀ other payload' command', Says other payload' → other.build = .ok command' →
        command'.instruction = command.instruction → command'.data = command.data →
        payload' = payload := by
  obtain ⟨command, hbuild, hinstruction, hwritten⟩ := written_of_says h
  refine ⟨command, hbuild, ?_, ?_⟩
  · exact (Payload.findsAll_read _ _ _ _).mpr ⟨⟨hinstruction.symm, hwritten⟩, rfl⟩
  · intro other payload' command' h' hbuild' hsame hdata
    obtain ⟨_, hbuild'', hinstruction', hwritten'⟩ := written_of_says h'
    -- The other call gives one command only, so its payload is written there, too.
    cases hbuild'.symm.trans hbuild''
    rw [hdata] at hwritten'
    exact (Payload.findsAll_read command.instruction).unique
      ⟨hinstruction'.symm.trans hsame, hwritten'⟩ ⟨hinstruction.symm, hwritten⟩

/-- A transaction with so many inputs and outputs that both numbers and the size of the global map
have forms of different lengths. -/
theorem reads_back_of_many_inputs :
    let globalMap : Bytes := [0xFD, 0x2C, 0x01] ++ List.replicate 64 7
    let inputsRoot : Bytes := List.replicate 32 8
    let outputsRoot : Bytes := List.replicate 32 9
    let wallet : Wallet := .policy
      { name := "", version := .v2, template := "wpkh(@0/**)", keys := ["[76223a6e/84'/1'/0']tpubA"] }
    ∃ id, wallet.id = .ok id ∧ Field.IsCommitment globalMap ∧ ∃ command,
      (signPsbt ⟨globalMap, (70000 : Nat), inputsRoot, (252 : Nat), outputsRoot⟩ wallet none).build =
        .ok command ∧
      (Payload.read command.instruction).run command.data =
        .ok (.psbt globalMap 70000 inputsRoot 252 outputsRoot id (List.replicate 32 0)) [] := by
  intro globalMap inputsRoot outputsRoot wallet
  obtain ⟨id, hid⟩ : ∃ id, wallet.id = .ok id := exists_of_isOk (by decide +kernel)
  -- The count of the global map is written in three bytes, like that of the inputs in five.
  have hglobal : Field.IsCommitment globalMap :=
    ⟨300, _, List.replicate 64 7, @CompactSize.Form.two [0x2C, 0x01] rfl, rfl, rfl⟩
  have hsays : Says (signPsbt ⟨globalMap, (70000 : Nat), inputsRoot, (252 : Nat), outputsRoot⟩
      wallet none) (.psbt globalMap 70000 inputsRoot 252 outputsRoot id (Command.hmacField none)) :=
    .signPsbt hglobal (by decide) rfl (by decide) rfl hid (by simp)
  obtain ⟨command, hbuild, hread, -⟩ := reads_back hsays
  exact ⟨id, hid, hglobal, command, hbuild, hread⟩

end Order
end SignerHost

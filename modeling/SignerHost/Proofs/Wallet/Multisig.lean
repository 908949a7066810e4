import SignerHost.Proofs.Wallet.Placeholders

/-!
# The descriptor of a multisig wallet

The template of a multisig wallet lists the placeholders of all keys.  In version 2 a `/**` stands
behind each of them, and in version 1 at the end of each key; once the keys are put in, both
versions have the same text, with a branch and a wildcard behind each key.

* `Listing` is a template that lists placeholders.  Something stands behind each of them, so none
  can be read together with a digit of a key.
* `fillBranch_listed` fills the branches: a key without `/**` has no part of one either.
* `descriptors_agree` has the descriptor of both versions.
-/

namespace SignerHost

open Text Step

/-! ## Templates that list placeholders -/

/-- The parts with a comma in front of each and the same text behind each. -/
def Text.listed (behind : List Char) (parts : List (List Char)) : List Char :=
  parts.flatMap fun part => ',' :: (part ++ behind)

/-- A text, listed placeholders with a text behind each, and a text at the end. -/
structure Template.Listing where
  head : List Char
  suffix : List Char
  close : List Char
  plain : '@' ∉ head ++ suffix ++ close
  nonempty : close ≠ []
  apart : Text.startsWithDigit (suffix ++ [',']) = false
  closed : Text.startsWithDigit (suffix ++ close) = false

namespace Template.Listing

open Template

variable (l : Listing)

def parts : List Nat → List Part
  | [] => []
  | [i] => [⟨i, l.suffix ++ l.close, by have h := l.plain; simp_all, l.closed⟩]
  | i :: j :: numbers =>
      ⟨i, l.suffix ++ [','], by have h := l.plain; simp_all, l.apart⟩ :: parts (j :: numbers)

/-- The first so many placeholders. -/
def template (count : Nat) : Template where
  front := l.head ++ [',']
  plain := by have h := l.plain; simp_all
  parts := l.parts (List.range count)

variable {l}

theorem of_mem_parts {numbers : List Nat} {part : Part} (h : part ∈ l.parts numbers) :
    part.number ∈ numbers ∧ part.literal ≠ [] := by
  induction numbers using parts.induct with
  | case1 => cases h
  | case2 i =>
      rw [parts, List.mem_singleton] at h
      simp [h, l.nonempty]
  | case3 i j numbers ih =>
      rcases List.mem_cons.mp h with rfl | h
      · simp
      · exact ⟨List.mem_cons_of_mem i (ih h).1, (ih h).2⟩

theorem comma_fillParts (f : Nat → List Char) {numbers : List Nat} (h : numbers ≠ []) :
    ',' :: fillParts f (l.parts numbers) = listed l.suffix (numbers.map f) ++ l.close := by
  induction numbers using parts.induct with
  | case1 => exact absurd rfl h
  | case2 i => simp [parts, fillParts, listed]
  | case3 i j numbers ih =>
      have ih := ih (List.cons_ne_nil j numbers)
      rw [List.map_cons, listed, List.flatMap_cons, ← listed, List.append_assoc, ← ih, parts,
        fillParts_cons]
      simp

theorem fill_template (f : Nat → List Char) {count : Nat} (h : count ≠ 0) :
    (l.template count).fill f =
      l.head ++ (listed l.suffix ((List.range count).map f) ++ l.close) := by
  have hnumbers : List.range count ≠ [] := by simpa using h
  rw [fill, ← comma_fillParts f hnumbers]
  simp [template]

/-- What stands behind a placeholder keeps it from being read with what is put in next. -/
theorem unambiguous (count : Nat) : (l.template count).Unambiguous := by
  rintro k ⟨a, b, hnext, hliteral, -⟩
  exact (of_mem_parts (hnext.subset List.mem_cons_self)).2 hliteral

end Template.Listing

namespace Policy

open Template

variable {p : Policy}

theorem map_keyText (p : Policy) :
    (List.range p.keys.length).map p.keyText = p.keys.map String.toList := by
  apply List.ext_getElem
  · simp
  · intro i _ hi
    rw [List.length_map] at hi
    simp [keyText, List.getElem?_eq_getElem hi]

/-- A policy with such a template has all keys put in, one behind the other. -/
theorem filled_of_listing {l : Listing} (hkeys : p.keys ≠ [])
    (htemplate : p.template.toList = (l.template p.keys.length).text)
    (hplain : ∀ key ∈ p.keys, '@' ∉ key.toList) :
    p.filled = l.head ++ (listed l.suffix (p.keys.map String.toList) ++ l.close) := by
  have hcount : p.keys.length ≠ 0 := by simpa using hkeys
  have hfits : (l.template p.keys.length).Fits p :=
    ⟨htemplate, fun part hpart => List.mem_range.mp (Listing.of_mem_parts hpart).1, hplain⟩
  rw [hfits.filled ((Listing.unambiguous _).separated _), Listing.fill_template _ hcount,
    map_keyText]

/-! ## The branch behind each key -/

/-- What is put in place of a `/**`. -/
def branch (change : Bool) : String := if change then "/1/*" else "/0/*"

theorem fillBranch_eq (change : Bool) (text : List Char) :
    fillBranch change text = replaceAll '/' ['*', '*'] (branch change).toList text := by
  cases change <;> rfl

theorem fillBranch_listed {head close : List Char} {keys : List (List Char)} (change : Bool)
    (hhead : '/' ∉ head) (hclose : '/' ∉ close) (hkeys : ∀ key ∈ keys, ¬ "/**".toList <:+: key) :
    fillBranch change (head ++ (listed "/**".toList keys ++ close)) =
      head ++ (listed (branch change).toList keys ++ close) := by
  have hpattern : "/**".toList = ['/', '*', '*'] := by decide
  have hcomma : '/' ≠ ',' := by decide
  rw [hpattern] at hkeys ⊢
  rw [fillBranch_eq, replaceAll_append hhead, listed, replaceAll_flatMap (by decide) hcomma hkeys,
    replaceAll_of_not_mem hclose, listed]

end Policy

/-! ## Multisig wallets -/

/-- The scripts around the list of keys, from the outside to the inside. -/
def AddressType.scripts : AddressType → List String
  | legacy => ["sh"]
  | wit => ["wsh"]
  | shWit => ["sh", "wsh"]
  | _ => []

namespace Multisig

open Policy Template

/-- Functions one inside the other, the innermost one with arguments. -/
def nested (functions : List String) (arguments : String) : String :=
  functions.foldr (fun function inner => function ++ "(" ++ inner ++ ")") arguments

/-- The operator inside the scripts, with the threshold and the keys in their order.  It is how
the descriptor is meant, without any template. -/
def describe (type : AddressType) (sorted : Bool) (threshold : Nat) (keys : List String)
    (change : Bool) : String :=
  nested (type.scripts ++ [if sorted then "sortedmulti" else "multi"])
    (toString threshold ++ String.join (keys.map fun key => "," ++ key ++ branch change))

section Template

variable {type : AddressType} {wrapper : String × String}

/-- The head of the template, up to the threshold. -/
def head (wrapper : String × String) (sorted : Bool) (threshold : Nat) : String :=
  wrapper.1 ++ (if sorted then "sortedmulti(" else "multi(") ++ toString threshold

/-- What stands behind each placeholder. -/
def suffix (version : PolicyVersion) : String := if version.number = 2 then "/**" else ""

/-- The character with which a placeholder starts, or a branch. -/
def IsMark (x : Char) : Prop := x = '@' ∨ x = '/'

theorem not_mem_wrapper (h : type.wrapper? = some wrapper) {x : Char} (hx : IsMark x) :
    x ∉ wrapper.1.toList ∧ x ∉ wrapper.2.toList := by
  rcases hx with rfl | rfl <;> cases type <;> cases h <;> decide

theorem not_mem_head (h : type.wrapper? = some wrapper) (sorted : Bool) (threshold : Nat) {x : Char}
    (hx : IsMark x) : x ∉ (head wrapper sorted threshold).toList := by
  have hoperator : x ∉ (if sorted then "sortedmulti(" else "multi(").toList := by
    rcases hx with rfl | rfl <;> cases sorted <;> decide
  have hdigit : x.isDigit = false := by rcases hx with rfl | rfl <;> rfl
  have hdigits : (toString threshold).toList = Nat.toDigits 10 threshold := by simp
  simp only [head, String.toList_append, List.mem_append, hdigits]
  rintro ((hmem | hmem) | hmem)
  · exact (not_mem_wrapper h hx).1 hmem
  · exact hoperator hmem
  · exact not_mem_toDigits hdigit _ hmem

/-- The template of a multisig wallet.  It is taken apart at the placeholders, so that they can
be filled one by one. -/
def listing (h : type.wrapper? = some wrapper) (sorted : Bool) (threshold : Nat)
    (version : PolicyVersion) : Listing where
  head := (head wrapper sorted threshold).toList
  suffix := (suffix version).toList
  close := wrapper.2.toList
  plain := by
    have hsuffix : '@' ∉ (suffix version).toList := by
      unfold suffix
      split <;> decide
    have hhead := not_mem_head h sorted threshold (.inl rfl)
    have hclose := (not_mem_wrapper h (.inl rfl)).2
    simp [hhead, hsuffix, hclose]
  nonempty := by
    cases type <;> cases h <;> decide
  apart := by
    unfold suffix
    split <;> decide
  closed := by
    unfold suffix
    split <;> cases type <;> cases h <;> decide

theorem comma_intercalate {parts : List (List Char)} (h : parts ≠ []) :
    ',' :: List.intercalate [','] parts = listed [] parts := by
  induction parts with
  | nil => exact absurd rfl h
  | cons part parts ih =>
      cases parts with
      | nil => simp [listed]
      | cons next parts =>
          have ih := ih (List.cons_ne_nil next parts)
          rw [List.intercalate_cons_cons, listed, List.flatMap_cons, ← listed, ← ih]
          simp

theorem toList_placeholder (version : PolicyVersion) (i : Nat) :
    (Multisig.placeholder version i).toList =
      Template.placeholder i ++ (suffix version).toList := by
  simp [Multisig.placeholder, Template.placeholder, suffix]

/-- The template is written with its list of placeholders joined by commas. -/
theorem toList_template (h : type.wrapper? = some wrapper) (sorted : Bool) (threshold : Nat)
    {count : Nat} (version : PolicyVersion) (hcount : count ≠ 0) :
    (Multisig.template wrapper sorted threshold count version).toList =
      ((listing h sorted threshold version).template count).text := by
  have hne : ((List.range count).map (Multisig.placeholder version)).map String.toList ≠ [] := by
    simpa using hcount
  have hlisted : listed (suffix version).toList ((List.range count).map Template.placeholder) =
      ',' :: List.intercalate [',']
        (((List.range count).map (Multisig.placeholder version)).map String.toList) := by
    rw [comma_intercalate hne]
    simp [listed, List.flatMap_map, toList_placeholder]
  rw [Template.text, Listing.fill_template _ hcount]
  simp [Multisig.template, String.toList_intercalate, listing, head, hlisted]

/-- The same text with a branch in place of each placeholder and what stands behind it. -/
theorem toList_describe (h : type.wrapper? = some wrapper) (sorted : Bool) (threshold : Nat)
    (keys : List String) (change : Bool) :
    (describe type sorted threshold keys change).toList =
      (head wrapper sorted threshold).toList ++
        (listed (branch change).toList (keys.map String.toList) ++ wrapper.2.toList) := by
  cases type <;> cases h <;> cases sorted <;>
    simp [describe, nested, AddressType.scripts, head, listed, List.flatMap_map]

end Template

section Wallet

variable {name : String} {type : AddressType} {wrapper : String × String} {sorted : Bool}
  {threshold : Nat} {keys : List String} {version : PolicyVersion}

/-- The policy of a multisig wallet. -/
def policyOf (name : String) (wrapper : String × String) (sorted : Bool) (threshold : Nat)
    (keys : List String) (version : PolicyVersion) : Policy where
  name := name
  version := version
  template := Multisig.template wrapper sorted threshold keys.length version
  keys := keys

theorem make_eq (hwrapper : type.wrapper? = some wrapper)
    (hbounded : (policyOf name wrapper sorted threshold keys version).Bounded)
    (hpositive : 1 ≤ threshold) (hthreshold : threshold ≤ keys.length)
    (hcount : keys.length ≤ maxKeys) :
    make name type threshold keys sorted version =
      .ok ⟨policyOf name wrapper sorted threshold keys version, threshold⟩ := by
  have hcounts : ¬ ((threshold : Int) < 1 ∨ (keys.length : Int) < threshold ∨
      maxKeys < keys.length) := by omega
  unfold make
  refine guard_eq_ok.mpr ⟨hcounts, ?_⟩
  rw [hwrapper]
  exact bind_eq_ok.mpr ⟨_, hbounded.make_eq, rfl⟩

theorem filled_policyOf (hwrapper : type.wrapper? = some wrapper) (hne : keys ≠ [])
    (hplain : ∀ key ∈ keys, '@' ∉ key.toList) :
    (policyOf name wrapper sorted threshold keys version).filled =
      (head wrapper sorted threshold).toList ++
        (listed (suffix version).toList (keys.map String.toList) ++ wrapper.2.toList) := by
  have hcount : keys.length ≠ 0 := by simpa using hne
  exact filled_of_listing (p := policyOf name wrapper sorted threshold keys version) hne
    (toList_template hwrapper sorted threshold version hcount) hplain

/-- With a `/**` behind each key, the descriptor is what it should be. -/
theorem descriptor_of_filled {p : Policy} (hwrapper : type.wrapper? = some wrapper)
    (hfilled : p.filled = (head wrapper sorted threshold).toList ++
      (listed "/**".toList (keys.map String.toList) ++ wrapper.2.toList))
    (hkeys : ∀ key ∈ keys, ¬ "/**".toList <:+: key.toList) (change : Bool) :
    p.descriptor change = describe type sorted threshold keys change := by
  have hlisted : ∀ key ∈ keys.map String.toList, ¬ "/**".toList <:+: key :=
    List.forall_mem_map.mpr hkeys
  have hhead := not_mem_head hwrapper sorted threshold (.inr rfl)
  have hclose := (not_mem_wrapper hwrapper (.inr rfl)).2
  apply String.toList_inj.mp
  rw [descriptor, String.toList_ofList, hfilled, fillBranch_listed change hhead hclose hlisted,
    toList_describe hwrapper]

theorem exists_wrapper (h : type ∈ [.legacy, .wit, .shWit]) :
    ∃ wrapper, type.wrapper? = some wrapper := by
  simp only [List.mem_cons, List.not_mem_nil, or_false] at h
  rcases h with rfl | rfl | rfl <;> exact ⟨_, rfl⟩

/-- A wallet has the right descriptor if its keys, with what stands behind their placeholders, are
the keys with a `/**` behind each. -/
theorem exists_make (version : PolicyVersion) (sorted : Bool) {written : List String}
    (hname : ∃ bs, Text.latin1 name = .ok bs ∧ bs.length ≤ WalletHeader.maxName)
    (hversion : version.isKnown = true) (htype : type ∈ [.legacy, .wit, .shWit])
    (hpositive : 1 ≤ threshold) (hthreshold : threshold ≤ keys.length)
    (hcount : keys.length ≤ maxKeys) (hkeys : ∀ key ∈ keys, ¬ "/**".toList <:+: key.toList)
    (hplain : ∀ key ∈ written, '@' ∉ key.toList) (hlength : written.length = keys.length)
    (hlisted : listed (suffix version).toList (written.map String.toList) =
      listed "/**".toList (keys.map String.toList)) :
    ∃ m, make name type threshold written sorted version = .ok m ∧
      ∀ change, m.policy.descriptor change = describe type sorted threshold keys change := by
  -- The sixteen keys that are allowed are far fewer than the policy could count.
  obtain ⟨wrapper, hwrapper⟩ := exists_wrapper htype
  have hne : written ≠ [] := List.length_pos_iff.mp (by omega)
  have hmax : written.length ≤ 252 := (hlength.trans_le hcount).trans (by decide)
  have hbounded : (policyOf name wrapper sorted threshold written version).Bounded :=
    ⟨hversion, hname, hmax⟩
  refine ⟨_, make_eq hwrapper hbounded hpositive (by omega) (by omega), fun change => ?_⟩
  refine descriptor_of_filled hwrapper ?_ hkeys change
  rw [filled_policyOf hwrapper hne hplain, hlisted]

end Wallet

/-- The wallet of either version can be made, and the descriptors of both are the operator with the
threshold and the keys in their order, each with a branch and a wildcard behind it. -/
theorem descriptors_agree {name name' : String} {type : AddressType} (sorted : Bool)
    {threshold : Nat} {keys : List String}
    (hname : ∃ bs, Text.latin1 name = .ok bs ∧ bs.length ≤ WalletHeader.maxName)
    (hname' : ∃ bs, Text.latin1 name' = .ok bs ∧ bs.length ≤ WalletHeader.maxName)
    (htype : type ∈ [.legacy, .wit, .shWit]) (hpositive : 1 ≤ threshold)
    (hthreshold : threshold ≤ keys.length) (hcount : keys.length ≤ 16)
    (hkeys : ∀ key ∈ keys, '@' ∉ key.toList ∧ ¬ "/**".toList <:+: key.toList) :
    ∃ m m', make name type threshold keys sorted .v2 = .ok m ∧
      make name' type threshold (keys.map (· ++ "/**")) sorted .v1 = .ok m' ∧
      ∀ change, m.policy.descriptor change = describe type sorted threshold keys change ∧
        m'.policy.descriptor change = describe type sorted threshold keys change := by
  have hplain : ∀ key ∈ keys, '@' ∉ key.toList := fun key hkey => (hkeys key hkey).1
  have hwhole : ∀ key ∈ keys, ¬ "/**".toList <:+: key.toList := fun key hkey => (hkeys key hkey).2
  have hplain' : ∀ key ∈ keys.map (· ++ "/**"), '@' ∉ key.toList := by
    have hbranch : '@' ∉ "/**".toList := by decide
    intro key hmem
    obtain ⟨key, hkey, rfl⟩ := List.mem_map.mp hmem
    rw [String.toList_append, List.mem_append]
    exact not_or.mpr ⟨hplain key hkey, hbranch⟩
  -- The branch stands in the template of one version and in the keys of the other.
  have hlisted : listed (suffix .v1).toList ((keys.map (· ++ "/**")).map String.toList) =
      listed "/**".toList (keys.map String.toList) := by
    simp [listed, suffix, PolicyVersion.number, List.flatMap_map]
  obtain ⟨m, hmake, hm⟩ :=
    exists_make .v2 sorted hname rfl htype hpositive hthreshold hcount hwhole hplain rfl rfl
  obtain ⟨m', hmake', hm'⟩ := exists_make .v1 sorted hname' rfl htype hpositive hthreshold hcount
    hwhole hplain' (List.length_map _) hlisted
  exact ⟨m, m', hmake, hmake', fun change => ⟨hm change, hm' change⟩⟩

/-- Eleven keys, so that the placeholder of the second one starts that of the last one.  Each key
ends as a `/**` starts. -/
theorem descriptors_agree_of_eleven_keys :
    ∃ keys : List String, keys = (List.range 11).map (fun i => toString i ++ "/*") ∧
      ∃ m m', make "Caffè" .shWit 2 keys true .v2 = .ok m ∧
        make "" .shWit 2 (keys.map (· ++ "/**")) true .v1 = .ok m' ∧
        m.policy.descriptor true = m'.policy.descriptor true ∧
        m.policy.descriptor true =
          "sh(wsh(sortedmulti(2,0/*/1/*,1/*/1/*,2/*/1/*,3/*/1/*,4/*/1/*,5/*/1/*,6/*/1/*,7/*/1/*," ++
            "8/*/1/*,9/*/1/*,10/*/1/*)))" := by
  let keys : List String := (List.range 11).map fun i => toString i ++ "/*"
  have hkeys : ∀ key ∈ keys, '@' ∉ key.toList ∧ ¬ "/**".toList <:+: key.toList := by decide
  have hname : ∃ bs, Text.latin1 "Caffè" = .ok bs ∧ bs.length ≤ WalletHeader.maxName :=
    ⟨_, rfl, by decide⟩
  have hname' : ∃ bs, Text.latin1 "" = .ok bs ∧ bs.length ≤ WalletHeader.maxName :=
    ⟨_, rfl, by decide⟩
  have htype : AddressType.shWit ∈ [.legacy, .wit, .shWit] := by decide
  have hthreshold : 2 ≤ keys.length := by decide
  obtain ⟨m, m', hmake, hmake', hdescriptor⟩ :=
    descriptors_agree true hname hname' htype (by decide) hthreshold (by decide) hkeys
  obtain ⟨hm, hm'⟩ := hdescriptor true
  exact ⟨keys, rfl, m, m', hmake, hmake', hm.trans hm'.symm, hm.trans (by decide)⟩

end Multisig

end SignerHost

import SignerHost.Proofs.Psbt.MapRoundTrip

/-!
# Maps that are cut

A map ends with a separator, and data may end before it.  If they end behind a key, then reading
refuses them.  If they end in front of a key or inside it, then reading takes this for the end of
the map, and gives the pairs that it has.

* `Whole.exists_cut` says what is left of a map that is cut anywhere, and `run_read_of_prefix` what
  becomes of it.
* `Whole.not_endsInKey` says that no whole map also ends inside a key.
* `read_exact` has both directions for any bytes.
-/

namespace SignerHost

open Step

namespace MapCodec

/-! ## What is left of a map -/

/-- Of two strings, one behind the other, the first one is cut, or a part of the second is left. -/
theorem cut_append {s xs ys : Bytes} (hstart : s <+: xs ++ ys) (hne : s ≠ xs ++ ys) :
    (s <+: xs ∧ s ≠ xs) ∨ ∃ part, s = xs ++ part ∧ part <+: ys ∧ part ≠ ys := by
  obtain ⟨more, hmore⟩ := hstart
  rcases List.append_eq_append_iff.mp hmore with ⟨behind, rfl, rfl⟩ | ⟨part, rfl, rfl⟩
  · by_cases hempty : behind = []
    · subst hempty
      refine .inr ⟨[], by simp, List.nil_prefix, fun h => hne ?_⟩
      simpa using h
    · exact .inl ⟨List.prefix_append s behind, by simpa using hempty⟩
  · refine .inr ⟨part, rfl, List.prefix_append part more, fun h => hne ?_⟩
    rw [← h]

theorem Framed.exists_cut {field bs s : Bytes} (h : Framed field bs) (hstart : s <+: bs)
    (hne : s ≠ bs) : ∃ cause, Cut s cause := by
  obtain ⟨word, form⟩ := h
  rcases cut_append hstart hne with ⟨hsize, hcut⟩ | ⟨part, rfl, hpart, hcut⟩
  · exact ⟨_, .length ⟨_, _, form, hsize, hcut⟩⟩
  · have hshort : part.length < field.length := by
      obtain ⟨more, rfl⟩ := hpart
      have := List.length_pos_of_ne_nil (l := more) (by simpa using hcut)
      simp
      omega
    exact ⟨_, .field word form hshort⟩

theorem Written.exists_cut {pairs : List (Bytes × Bytes)} {front size s : Bytes}
    (h : Written pairs front) (hsize : CompactSize.Form 0 size) (hstart : s <+: front ++ size)
    (hne : s ≠ front ++ size) :
    ∃ done whole tail cause, done <+: pairs ∧ Written done whole ∧ s = whole ++ tail ∧
      (Cut tail cause ∨ CutValue tail cause) := by
  induction h generalizing s with
  | nil =>
      obtain ⟨cause, hcut⟩ := (framed_separator hsize).exists_cut hstart hne
      exact ⟨[], [], s, cause, List.nil_prefix, .nil, rfl, .inl hcut⟩
  | @cons key value k v bs pairs nonempty framedKey framedValue _ ih =>
      -- The cut is inside the key, or inside the value, or further behind.
      rw [List.append_assoc, List.append_assoc] at hstart hne
      rcases cut_append hstart hne with ⟨hkey, hcut⟩ | ⟨behind, rfl, hbehind, hne⟩
      · obtain ⟨cause, hcut⟩ := framedKey.exists_cut hkey hcut
        exact ⟨[], [], s, cause, List.nil_prefix, .nil, rfl, .inl hcut⟩
      · rcases cut_append hbehind hne with ⟨hvalue, hcut⟩ | ⟨rest, rfl, hrest, hne⟩
        · obtain ⟨cause, hcut⟩ := framedValue.exists_cut hvalue hcut
          exact ⟨[], [], _, cause, List.nil_prefix, .nil, rfl,
            .inr (.behind nonempty framedKey hcut)⟩
        · obtain ⟨done, whole, tail, cause, hdone, hwritten, rfl, htail⟩ := ih hrest hne
          refine ⟨(key, value) :: done, _, tail, cause, List.cons_prefix_cons.mpr ⟨rfl, hdone⟩,
            .cons nonempty framedKey framedValue hwritten, ?_, htail⟩
          simp

/-- Of a map that is cut, some first pairs are whole, and behind them a key or a value is cut. -/
theorem Whole.exists_cut {pairs : List (Bytes × Bytes)} {bs s : Bytes} (h : Whole pairs bs)
    (hstart : s <+: bs) (hne : s ≠ bs) :
    ∃ done tail cause, done <+: pairs ∧ StartsWith s done tail ∧
      (Cut tail cause ∨ CutValue tail cause) := by
  obtain ⟨front, size, hwritten, hsize, rfl⟩ := h.written
  obtain ⟨done, whole, tail, cause, hdone, hwhole, hs, htail⟩ :=
    hwritten.exists_cut hsize hstart hne
  exact ⟨done, tail, cause, hdone, ⟨h.distinct.of_prefix hdone, whole, hwhole, hs⟩, htail⟩

/-! ## Whole maps are not cut -/

theorem Framed.eq_of_append_eq {field field' bs bs' rest rest' : Bytes} (h : Framed field bs)
    (h' : Framed field' bs') (heq : bs ++ rest = bs' ++ rest') : field = field' ∧ rest = rest' := by
  have hread := run_string_of_framed h rest
  rw [heq, run_string_of_framed h'] at hread
  cases hread
  exact ⟨rfl, rfl⟩

theorem Framed.not_cut {field bs rest : Bytes} {cause : Malformed} (h : Framed field bs) :
    ¬ Cut (bs ++ rest) cause := by
  intro hcut
  have hread := run_string_of_cut hcut
  rw [run_string_of_framed h] at hread
  cases hread

/-- Pairs with a separator behind them are read in one way, and it ends with the separator. -/
theorem Written.not_cut {pairs pairs' : List (Bytes × Bytes)} {front front' size rest tail : Bytes}
    {cause : Malformed} (h : Written pairs front) (h' : Written pairs' front')
    (hsize : CompactSize.Form 0 size) (heq : front ++ (size ++ rest) = front' ++ tail) :
    ¬ Cut tail cause := by
  -- Both maps go through the same pairs, until one of them ends or is cut.
  induction h generalizing pairs' front' with
  | nil =>
      have hseparator := framed_separator hsize
      cases h' with
      | nil =>
          rw [← show size ++ rest = tail from heq]
          exact hseparator.not_cut
      | cons nonempty framedKey _ _ =>
          simp only [List.nil_append, List.append_assoc] at heq
          exact absurd (hseparator.eq_of_append_eq framedKey heq).1.symm nonempty
  | cons _ framedKey framedValue _ ih =>
      simp only [List.append_assoc] at heq
      cases h' with
      | nil =>
          rw [← show _ = tail from heq]
          exact framedKey.not_cut
      | cons _ framedKey' framedValue' written' =>
          simp only [List.append_assoc] at heq
          have hbehind := (framedKey.eq_of_append_eq framedKey' heq).2
          exact ih written' (framedValue.eq_of_append_eq framedValue' hbehind).2

/-- Behind the pairs, the data ends in front of a key or inside it.  There is no separator then,
and no value is missing either. -/
def EndsInKey (s : Bytes) (pairs : List (Bytes × Bytes)) : Prop :=
  ∃ tail cause, StartsWith s pairs tail ∧ Cut tail cause

theorem Whole.not_endsInKey {pairs pairs' : List (Bytes × Bytes)} {bs : Bytes} (h : Whole pairs bs)
    (rest : Bytes) : ¬ EndsInKey (bs ++ rest) pairs' := by
  rintro ⟨tail, cause, hstarts, hcut⟩
  obtain ⟨front, size, hwritten, hsize, rfl⟩ := h.written
  obtain ⟨front', hwritten', heq⟩ := hstarts.written
  rw [List.append_assoc] at heq
  exact hwritten.not_cut hwritten' hsize heq hcut

/-! ## What is read -/

/-- Reading ends behind a whole map, or where the data ends in front of a key or inside it.  The
two cannot be confused, because a whole map has a separator. -/
theorem exists_ends_iff {s rest : Bytes} {pairs : List (Bytes × Bytes)} :
    (∃ tail, StartsWith s pairs tail ∧ Ends tail rest) ↔
      (∃ bs, Whole pairs bs ∧ s = bs ++ rest) ∨
        (rest = [] ∧ EndsInKey s pairs) := by
  constructor
  · rintro ⟨tail, hstarts, hends⟩
    cases hends with
    | @separator size rest form =>
        obtain ⟨front, hwritten, rfl⟩ := hstarts.written
        refine .inl ⟨front ++ size, ⟨hstarts.distinct, front, size, hwritten, form, rfl⟩, ?_⟩
        rw [List.append_assoc]
    | @cutKey tail cause cut => exact .inr ⟨rfl, tail, cause, hstarts, cut⟩
  · rintro (⟨bs, hwhole, rfl⟩ | ⟨rfl, tail, cause, hstarts, hcut⟩)
    · exact hwhole.exists_ends rest
    · exact ⟨tail, hstarts, .cutKey hcut⟩

theorem run_read_eq_ok {s rest : Bytes} {m : ByteMap} :
    read.run s = .ok m rest ↔
      ∃ pairs, m.entries.Perm pairs ∧ ∃ tail, StartsWith s pairs tail ∧ Ends tail rest := by
  constructor
  · intro h
    rcases run_read_cases s with ⟨pairs, tail, _, hstarts, hends, hread⟩ | ⟨_, _, _, _, -, -, hread⟩
    · cases hread.symm.trans h
      exact ⟨pairs, (ByteMap.perm_entries_iff hstarts.distinct).mpr rfl, tail, hstarts, hends⟩
    · cases hread.symm.trans h
  · rintro ⟨pairs, hperm, tail, hstarts, hends⟩
    rw [(ByteMap.perm_entries_iff hstarts.distinct).mp hperm, hstarts.run_of_ends hends]

theorem run_read_eq_error {s rest : Bytes} {failure : Failure} :
    read.run s = .error failure rest ↔
      ∃ pairs tail, StartsWith s pairs tail ∧ Refuses pairs tail failure rest := by
  constructor
  · intro h
    rcases run_read_cases s with
      ⟨_, _, _, -, -, hread⟩ | ⟨pairs, tail, _, _, hstarts, hrefuses, hread⟩
    · cases hread.symm.trans h
    · cases hread.symm.trans h
      exact ⟨pairs, tail, hstarts, hrefuses⟩
  · rintro ⟨pairs, tail, hstarts, hrefuses⟩
    exact hstarts.run_of_refuses hrefuses

/-- A map without its end is read up to a key that is cut, or refused for a value that is cut. -/
theorem run_read_of_prefix {pairs : List (Bytes × Bytes)} {bs s : Bytes} (h : Whole pairs bs)
    (hstart : s <+: bs) (hne : s ≠ bs) :
    ∃ done, done <+: pairs ∧
      ((EndsInKey s done ∧ ∃ m, read.run s = .ok m [] ∧ m.entries.Perm done) ∨
        ∃ tail cause, StartsWith s done tail ∧ CutValue tail cause ∧
          read.run s = .error (.malformed cause) []) := by
  obtain ⟨done, tail, cause, hdone, hstarts, hcut | hcut⟩ := h.exists_cut hstart hne
  · exact ⟨done, hdone, .inl ⟨⟨tail, cause, hstarts, hcut⟩, _, hstarts.run_of_ends (.cutKey hcut),
      (ByteMap.perm_entries_iff hstarts.distinct).mpr rfl⟩⟩
  · exact ⟨done, hdone, .inr ⟨tail, cause, hstarts, hcut, hstarts.run_of_refuses (.cutValue hcut)⟩⟩

/-- A map is read from the bytes of a whole map, and from bytes that end in front of a key or inside
it; then it has the pairs in front of that key.  No bytes are both.  All other bytes are refused:
behind some pairs, they have a length that is too large, a key that was there before, or a value
that is cut.  So of a map that is cut, the first pairs are read if the cut is in front of a key or
inside it, and nothing is read if it is behind. -/
theorem read_exact (s rest : Bytes) :
    (∀ m, read.run s = .ok m rest ↔
      ∃ pairs, m.entries.Perm pairs ∧
        ((∃ bs, Whole pairs bs ∧ s = bs ++ rest) ∨ (rest = [] ∧ EndsInKey s pairs))) ∧
    (∀ pairs bs, Whole pairs bs → s = bs ++ rest → ¬ ∃ pairs, EndsInKey s pairs) ∧
    (∀ failure, read.run s = .error failure rest ↔
      ∃ pairs tail, StartsWith s pairs tail ∧ Refuses pairs tail failure rest) ∧
    (∀ pairs bs, Whole pairs bs → s <+: bs → s ≠ bs →
      ∃ done, done <+: pairs ∧
        ((EndsInKey s done ∧ ∃ m, read.run s = .ok m [] ∧ m.entries.Perm done) ∨
          ∃ tail cause, StartsWith s done tail ∧ CutValue tail cause ∧
            read.run s = .error (.malformed cause) [])) := by
  refine ⟨?_, ?_, fun failure => run_read_eq_error, fun pairs bs h => run_read_of_prefix h⟩
  · intro m
    simp only [run_read_eq_ok, exists_ends_iff]
  · rintro pairs bs hwhole rfl ⟨pairs', hends⟩
    exact hwhole.not_endsInKey rest hends

/-- A pair with a key of one byte and a value of two bytes, of which one is there. -/
theorem read_exact_of_cut_value :
    ∃ pairs bs, ∃ s : Bytes, s = [0x01, 0x61, 0x02, 0x62] ∧ Whole pairs bs ∧ s <+: bs ∧ s ≠ bs ∧
      ∃ done tail cause, StartsWith s done tail ∧ CutValue tail cause ∧
        read.run s = .error (.malformed cause) [] := by
  let pairs : List (Bytes × Bytes) := [([0x61], [0x62, 0x63])]
  let s : Bytes := [0x01, 0x61, 0x02, 0x62]
  have hwhole : Whole pairs (encode pairs) :=
    whole_encode (by decide) (List.forall_mem_singleton.mpr ⟨by decide, by decide, by decide⟩)
  have hstart : s <+: encode pairs := by decide
  have hne : s ≠ encode pairs := by decide
  refine ⟨pairs, encode pairs, s, rfl, hwhole, hstart, hne, ?_⟩
  have hkey : Framed [0x61] (Wire.prefixed [0x61]) := framed_prefixed (by decide)
  have hsize : CompactSize.Form 2 [0x02] := .one (b := 0x02) (by decide)
  -- Two bytes are stated for the value and one is left.
  have hcut : Cut ([0x02] ++ [0x62]) (.cutString 2) := .field (by decide) hsize (by decide)
  have hstarts : StartsWith s [] s := ⟨List.nodup_nil, [], .nil, rfl⟩
  obtain ⟨-, -, herror, hprefixes⟩ := read_exact s []
  have hrefused := (herror _).mpr ⟨[], s, hstarts, .cutValue (.behind (by decide) hkey hcut)⟩
  obtain ⟨done, -, ⟨-, m, hread, -⟩ | hvalue⟩ := hprefixes _ _ hwhole hstart hne
  · cases hrefused.symm.trans hread
  · exact ⟨done, hvalue⟩

theorem zero_mem_of_form {size : Bytes} (h : CompactSize.Form 0 size) : 0x00 ∈ size := by
  -- The lowest byte stands first, and it is zero with the whole number.
  have hzero {bs : Bytes} (hbs : bs ≠ []) (hvalue : Bytes.toNatLE bs = 0) : 0x00 ∈ bs := by
    cases bs with
    | nil => exact absurd rfl hbs
    | cons b bs =>
        have hb : b.toNat = 0 := by
          rw [Bytes.toNatLE] at hvalue
          omega
        have hbyte : b = 0x00 := UInt8.toNat_inj.mp hb
        simp [hbyte]
  generalize hn : 0 = n at h
  cases h with
  | @one b _ =>
      have hbyte : b = 0x00 := UInt8.toNat_inj.mp hn.symm
      simp [hbyte]
  | two h => exact List.mem_cons_of_mem _ (hzero (by rintro rfl; cases h) hn.symm)
  | four h => exact List.mem_cons_of_mem _ (hzero (by rintro rfl; cases h) hn.symm)
  | eight h => exact List.mem_cons_of_mem _ (hzero (by rintro rfl; cases h) hn.symm)

/-- A map of two pairs is cut inside its second key.  Its first pair is read, though the bytes have
no separator. -/
theorem not_whole_of_cut_key :
    ∃ pairs bs m, ∃ s : Bytes, s = [0x01, 0x61, 0x01, 0x62, 0x02, 0x63] ∧
      Whole pairs bs ∧ s <+: bs ∧ s ≠ bs ∧
      read.run s = .ok m [] ∧ m.entries = [([0x61], [0x62])] ∧
      ¬ ∃ pairs bs, m.entries.Perm pairs ∧ Whole pairs bs ∧ s = bs ++ [] := by
  let first : Bytes × Bytes := ([0x61], [0x62])
  let pairs : List (Bytes × Bytes) := [first, ([0x63, 0x64], [])]
  let s : Bytes := [0x01, 0x61, 0x01, 0x62, 0x02, 0x63]
  have hfirst : ∀ pair ∈ [first], Writable pair :=
    List.forall_mem_singleton.mpr ⟨by decide, by decide, by decide⟩
  have hwhole : Whole pairs (encode pairs) :=
    whole_encode (by decide) (List.forall_mem_cons.mpr ⟨hfirst _ List.mem_cons_self,
      List.forall_mem_singleton.mpr ⟨by decide, by decide, by decide⟩⟩)
  -- Behind the first pair stands a length of two, and one byte.
  have hsize : CompactSize.Form 2 [0x02] := .one (b := 0x02) (by decide)
  have hcut : Cut ([0x02] ++ [0x63]) (.cutString 2) := .field (by decide) hsize (by decide)
  have hstarts : StartsWith s [first] ([0x02] ++ [0x63]) :=
    ⟨by decide, _, written_pairs hfirst, rfl⟩
  have hread := hstarts.run_of_ends (.cutKey hcut)
  refine ⟨pairs, encode pairs, _, s, rfl, hwhole, by decide, by decide, hread, by decide, ?_⟩
  rintro ⟨pairs', bs, -, hwhole', hs⟩
  obtain ⟨front, size, -, hsize, rfl⟩ := hwhole'.written
  have hmem : 0x00 ∈ s := by
    rw [hs]
    simp [zero_mem_of_form hsize]
  have hnotMem : 0x00 ∉ s := by decide
  exact hnotMem hmem

end MapCodec

end SignerHost

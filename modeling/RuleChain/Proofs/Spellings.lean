import Mathlib.Data.List.DropRight
import RuleChain.Proofs.Written

/-! # Spellings of bytes

  A rule and a packet are written as hexadecimal text, and there are many ways to write the same
  bytes: with digits of either case, behind a marker or without one, with blanks around, and for a
  packet with blanks and colons anywhere between the digits.

  - `Hex.Spelling` is such a way, taken apart into what the readers skip and what they read.
  - `Hex.Spells` says which bytes the digits stand for: writing the bytes gives these digits back,
    in lower case.
  - `Hex.readers_exact`: a reader gives bytes if and only if the text is a spelling of them, so that
    no digit is lost or invented, and the reader of packets agrees with the reader of rules.
-/

namespace RuleChain

namespace Hex

/-! ### Spellings -/

/-- The characters are the digits of the bytes, each in either case. -/
def Spells (digits : List Char) (bytes : Bytes) : Prop :=
  String.ofList (digits.map Char.toLower) = encode bytes

instance (digits : List Char) (bytes : Bytes) : Decidable (Spells digits bytes) :=
  inferInstanceAs (Decidable (_ = _))

/-- What may stand before the digits. -/
def markers : List (List Char) := [[], ['0', 'x'], ['0', 'X']]

/-- A text taken apart: blanks, a marker or none, what is read, and blanks again. -/
structure Spelling where
  lead : List Char
  marker : List Char
  body : List Char
  trail : List Char
  lead_blank : ∀ c ∈ lead, Text.isBlank c = true
  marker_mem : marker ∈ markers
  trail_blank : ∀ c ∈ trail, Text.isBlank c = true

def Spelling.text (s : Spelling) : String := String.ofList (s.lead ++ s.marker ++ s.body ++ s.trail)

/-! ### Digits -/

/-- The two digits of a byte as numbers, the high one first. -/
def halves (byte : UInt8) : List Nat := [byte.toNat / 16, byte.toNat % 16]

theorem length_halves (bytes : Bytes) : (bytes.flatMap halves).length = bytes.length * 2 := by
  simp [List.length_flatMap, halves]

theorem lt_of_mem_halves {bytes : Bytes} : ∀ n ∈ bytes.flatMap halves, n < 16 := by
  intro n hn
  obtain ⟨byte, -, hn⟩ := List.mem_flatMap.mp hn
  have hbyte : byte.toNat < 256 := byte.toNat_lt
  simp [halves] at hn
  omega

theorem spells_iff {digits : List Char} {bytes : Bytes} :
    Spells digits bytes ↔ digits.map Char.toLower = (bytes.flatMap halves).map digit := by
  have hencode : encode bytes = String.ofList ((bytes.flatMap halves).map digit) := by
    simp [encode, List.map_flatMap, halves]
    rfl
  rw [Spells, hencode]
  exact ⟨String.ofList_injective, congrArg _⟩

theorem value?_lt {byte : UInt8} {n : Nat} (h : value? byte = some n) : n < 16 := by
  simp only [value?, Char.reduceToNat] at h
  split at h
  · cases h; omega
  split at h
  · cases h; omega
  split at h
  · cases h; omega
  · cases h

/-- What holds of the first 128 characters holds of every character among them. -/
theorem of_ascii {P : Char → Prop} (h : ∀ k < 128, P (Char.ofNat k)) {c : Char}
    (hc : c.toNat < 128) : P c := by
  have := h c.toNat hc
  rwa [Char.ofNat_toNat] at this

theorem value?_eq_some_iff {c : Char} (hc : c.toNat < 128) :
    ∀ n < 16, (value? (UInt8.ofNat c.toNat) = some n ↔ c.toLower = digit n) :=
  of_ascii (P := fun c => ∀ n < 16, (value? (UInt8.ofNat c.toNat) = some n ↔ c.toLower = digit n))
    (by decide +kernel) hc

theorem digit_lt : ∀ n < 16, (digit n).toNat < 128 := by decide

/-- A character that becomes a digit in lower case is one of the first 128. -/
theorem lt_of_toLower_eq_digit {c : Char} {n : Nat} (hn : n < 16) (h : c.toLower = digit n) :
    c.toNat < 128 := by
  have hdigit := digit_lt n hn
  rw [← h] at hdigit
  by_contra hge
  have hsame : c.toLower = c := by
    unfold Char.toLower
    rw [dif_neg]
    intro hupper
    have hle := UInt32.le_iff_toNat_le.mp hupper.2
    change c.toNat ≤ 90 at hle
    omega
  rw [hsame] at hdigit
  exact hge hdigit

/-- No other character has a form in bytes that begins with a digit. -/
theorem value?_head_eq_none {c : Char} (hc : ¬ c.toNat < 128) :
    ∃ byte rest, String.utf8EncodeChar c = byte :: rest ∧ value? byte = none := by
  have hnone : ∀ byte : UInt8, 128 ≤ byte.toNat → value? byte = none := by
    intro byte hbyte
    simp only [value?, Char.reduceToNat]
    rw [if_neg (by omega), if_neg (by omega), if_neg (by omega)]
  have hc' : ¬ c.val.toNat ≤ 0x7f := by
    change ¬ c.toNat ≤ 0x7f
    omega
  unfold String.utf8EncodeChar
  dsimp only
  rw [if_neg hc']
  split
  · exact ⟨_, _, rfl, hnone _ (by simp; omega)⟩
  split
  · exact ⟨_, _, rfl, hnone _ (by simp; omega)⟩
  · exact ⟨_, _, rfl, hnone _ (by simp; omega)⟩

/-- The bytes of a text are digits of numbers if its characters are, in either case. -/
theorem map_value?_utf8_iff {text : List Char} {ns : List Nat} (hns : ∀ n ∈ ns, n < 16) :
    (text.flatMap String.utf8EncodeChar).map value? = ns.map some ↔
      text.map Char.toLower = ns.map digit := by
  induction text generalizing ns with
  | nil => cases ns <;> simp
  | cons c rest ih =>
    cases ns with
    | nil => simp
    | cons n ns =>
      have hn := hns n List.mem_cons_self
      have hrest := ih fun m hm => hns m (List.mem_cons_of_mem _ hm)
      by_cases hc : c.toNat < 128
      · have hsize : String.utf8EncodeChar c = [UInt8.ofNat c.toNat] :=
          if_pos (show c.toNat ≤ 0x7f by omega)
        simp [hsize, hrest, value?_eq_some_iff hc n hn]
      · obtain ⟨byte, more, hbytes, hnone⟩ := value?_head_eq_none hc
        have hne : c.toLower ≠ digit n := fun h => hc (lt_of_toLower_eq_digit hn h)
        simp [hbytes, hnone, hne]

theorem digitAt_eq_ok_iff {byte : UInt8} {position n : Nat} :
    digitAt byte position = .ok n ↔ value? byte = some n := by
  unfold digitAt
  cases value? byte <;> simp

/-- The two halves make up the byte again. -/
theorem ofNat_halves (byte : UInt8) :
    UInt8.ofNat (byte.toNat / 16 * 16 + byte.toNat % 16) = byte := by
  rw [Nat.div_add_mod', UInt8.ofNat_toNat]

theorem halves_ofNat {high low : Nat} (hhigh : high < 16) (hlow : low < 16) :
    halves (UInt8.ofNat (high * 16 + low)) = [high, low] := by
  have hbyte : (UInt8.ofNat (high * 16 + low)).toNat = high * 16 + low := by
    rw [UInt8.toNat_ofNat']
    omega
  simp only [halves, hbyte, List.cons.injEq, and_true]
  omega

theorem decodePairs_eq_ok_iff {position : Nat} {text : List UInt8} {bytes : Bytes}
    (heven : text.length % 2 = 0) :
    decodePairs position text = .ok bytes ↔ text.map value? = (bytes.flatMap halves).map some := by
  fun_induction decodePairs position text generalizing bytes with
  | case1 position high low rest ih =>
    have hrest : rest.length % 2 = 0 := by
      simp only [List.length_cons] at heven
      omega
    simp only [bind_eq_ok_iff, digitAt_eq_ok_iff, ih hrest]
    constructor
    · rintro ⟨h, hh, l, hl, rest', hrest', heq⟩
      cases heq
      simp only [List.map_cons, hh, hl, hrest', List.flatMap_cons,
        halves_ofNat (value?_lt hh) (value?_lt hl), List.cons_append, List.nil_append]
    · intro h
      cases bytes with
      | nil => simp at h
      | cons byte bytes =>
        simp only [List.flatMap_cons, halves, List.cons_append, List.nil_append, List.map_cons,
          List.cons.injEq] at h
        refine ⟨_, h.1, _, h.2.1, _, h.2.2, ?_⟩
        rw [ofNat_halves]
        rfl
  | case2 text position hshort =>
    -- an even number of bytes, but not two of them
    obtain rfl : text = [] := by
      match text with
      | [] => rfl
      | [_] => simp at heven
      | high :: low :: rest => exact absurd rfl (hshort high low rest)
    cases bytes <;> simp [halves]

theorem decode_eq_ok_iff {digits : List Char} {bytes : Bytes} :
    decode (String.ofList digits) = .ok bytes ↔ Spells digits bytes := by
  have hbytes : (String.ofList digits).toUTF8.data.toList =
      digits.flatMap String.utf8EncodeChar := by
    simp [String.toUTF8_eq_toByteArray, List.utf8Encode]
  rw [spells_iff, ← map_value?_utf8_iff lt_of_mem_halves, decode, decodeUtf8, hbytes]
  split
  · next hodd =>
    -- bytes have an even number of halves
    constructor
    · intro h
      cases h
    · intro h
      have hlength := congrArg List.length h
      simp only [List.length_map, length_halves] at hlength
      omega
  · next heven => exact decodePairs_eq_ok_iff (by omega)

/-! ### What is read -/

section Spells

variable {digits : List Char} {bytes : Bytes} (h : Spells digits bytes)
include h

/-- A digit is neither skipped nor the second character of a marker. -/
theorem Spells.plain {c : Char} (hc : c ∈ digits) :
    isSeparator c = false ∧ c ≠ 'x' ∧ c ≠ 'X' := by
  have hplain : ∀ n < 16, ∀ c : Char, c.toNat < 128 → c.toLower = digit n →
      isSeparator c = false ∧ c ≠ 'x' ∧ c ≠ 'X' := fun n hn c hc =>
    of_ascii (P := fun c => ∀ n < 16, c.toLower = digit n →
      isSeparator c = false ∧ c ≠ 'x' ∧ c ≠ 'X') (by decide +kernel) hc n hn
  have hmem : c.toLower ∈ (bytes.flatMap halves).map digit := by
    rw [← spells_iff.mp h]
    exact List.mem_map_of_mem hc
  obtain ⟨n, hn, hdigit⟩ := List.mem_map.mp hmem
  have hlt := lt_of_mem_halves n hn
  exact hplain n hlt c (lt_of_toLower_eq_digit hlt hdigit.symm) hdigit.symm

theorem Spells.not_blank {c : Char} (hc : c ∈ digits) : Text.isBlank c = false := by
  have hplain := (h.plain hc).1
  simp only [isSeparator, Bool.or_eq_false_iff] at hplain
  exact hplain.1

end Spells

end Hex

/-! ### Blanks around a text -/

namespace Text

variable {lead core trail : List Char}

theorem trim_eq (text : List Char) : trim text = (text.dropWhile isBlank).rdropWhile isBlank := rfl

/-- What is removed are blanks at both ends. -/
theorem exists_trim (text : List Char) : ∃ lead trail, text = lead ++ trim text ++ trail ∧
    (∀ c ∈ lead, isBlank c = true) ∧ ∀ c ∈ trail, isBlank c = true := by
  refine ⟨text.takeWhile isBlank, (text.dropWhile isBlank).rtakeWhile isBlank, ?_, ?_, ?_⟩
  · rw [trim_eq, List.append_assoc, List.rdropWhile_append_rtakeWhile,
      List.takeWhile_append_dropWhile]
  · exact fun c hc => List.mem_takeWhile_imp hc
  · exact fun c hc => List.mem_rtakeWhile_imp hc

theorem rdropWhile_append_blank (htrail : ∀ c ∈ trail, isBlank c = true) :
    (core ++ trail).rdropWhile isBlank = core.rdropWhile isBlank := by
  unfold List.rdropWhile
  rw [List.reverse_append, List.dropWhile_append_of_pos (by simpa using htrail)]

/-- Blanks around a text do not matter. -/
theorem trim_append (hlead : ∀ c ∈ lead, isBlank c = true)
    (htrail : ∀ c ∈ trail, isBlank c = true) :
    trim (lead ++ core ++ trail) = trim core := by
  rw [trim_eq, trim_eq, List.append_assoc, List.dropWhile_append_of_pos hlead,
    List.dropWhile_append]
  split
  · next hnone =>
    -- then the text is blank throughout
    have hcore : core.dropWhile isBlank = [] := List.isEmpty_iff.mp hnone
    have hblank := List.rdropWhile_eq_nil_iff.mpr fun c hc =>
      htrail c ((List.dropWhile_suffix isBlank).subset hc)
    rw [hcore, hblank, List.rdropWhile_nil]
  · exact rdropWhile_append_blank htrail

theorem rdropWhile_cons {c : Char} (hc : isBlank c = false) (rest : List Char) :
    (c :: rest).rdropWhile isBlank = c :: rest.rdropWhile isBlank := by
  unfold List.rdropWhile
  rw [List.reverse_cons, List.dropWhile_append]
  split
  · next hnone => simp [hc, List.isEmpty_iff.mp hnone]
  · simp

/-- Behind two characters that are not blank, blanks are only removed at the end. -/
theorem trim_cons_cons {c d : Char} (hc : isBlank c = false) (hd : isBlank d = false)
    (rest : List Char) : trim (c :: d :: rest) = c :: d :: rest.rdropWhile isBlank := by
  rw [trim_eq, List.dropWhile_cons_of_neg (by simp [hc]), rdropWhile_cons hc, rdropWhile_cons hd]

theorem trim_eq_self (h : ∀ c ∈ core, isBlank c = false) : trim core = core := by
  have hfront : core.dropWhile isBlank = core :=
    List.dropWhile_eq_self_iff.mpr fun hlen => by simp [h]
  rw [trim_eq, hfront, List.rdropWhile_eq_self_iff]
  intro hne
  simp [h _ (List.getLast_mem hne)]

end Text

namespace Hex

/-- A marker is taken off, and nothing is mistaken for one. -/
theorem stripMarker_append {marker rest : List Char} (h : marker ∈ markers)
    (hrest : ∀ c ∈ rest, c ≠ 'x' ∧ c ≠ 'X') : stripMarker (marker ++ rest) = rest := by
  simp only [markers, List.mem_cons, List.not_mem_nil, or_false] at h
  rcases h with rfl | rfl | rfl
  · show stripMarker rest = rest
    fun_cases stripMarker rest with
    | case1 rest => exact absurd rfl (hrest 'x' (by simp)).1
    | case2 rest => exact absurd rfl (hrest 'X' (by simp)).2
    | case3 => rfl
  · rfl
  · rfl

/-- A marker, or none, is what is taken off. -/
theorem exists_stripMarker (text : List Char) :
    ∃ marker ∈ markers, text = marker ++ stripMarker text := by
  fun_cases stripMarker text with
  | case1 rest => exact ⟨['0', 'x'], by decide, rfl⟩
  | case2 rest => exact ⟨['0', 'X'], by decide, rfl⟩
  | case3 => exact ⟨[], by decide, rfl⟩

/-- Every text can be taken apart, with what the readers look at as the body. -/
theorem exists_spelling (text : String) :
    ∃ s : Spelling, s.text = text ∧ s.body = stripMarker (Text.trim text.toList) := by
  obtain ⟨lead, trail, htext, hlead, htrail⟩ := Text.exists_trim text.toList
  obtain ⟨marker, hmarker, htrim⟩ := exists_stripMarker (Text.trim text.toList)
  refine ⟨⟨lead, marker, stripMarker (Text.trim text.toList), trail, hlead, hmarker, htrail⟩,
    ?_, rfl⟩
  rw [Spelling.text, List.append_assoc lead, ← htrim, ← htext, String.ofList_toList]

theorem not_blank_of_marker {marker : List Char} (h : marker ∈ markers) {c : Char}
    (hc : c ∈ marker) : Text.isBlank c = false := by
  have hall : markers.flatten.all (!Text.isBlank ·) = true := by decide
  simpa using List.all_eq_true.mp hall c (List.mem_flatten.mpr ⟨marker, h, hc⟩)

/-- If the body is digits alone, it is what the reader of a field looks at. -/
theorem Spelling.body_eq (s : Spelling) {bytes : Bytes} (h : Spells s.body bytes) :
    stripMarker (Text.trim s.text.toList) = s.body := by
  have hcore : ∀ c ∈ s.marker ++ s.body, Text.isBlank c = false := by
    intro c hc
    rcases List.mem_append.mp hc with hmarker | hbody
    · exact not_blank_of_marker s.marker_mem hmarker
    · exact h.not_blank hbody
  rw [Spelling.text, String.toList_ofList, List.append_assoc s.lead,
    Text.trim_append s.lead_blank s.trail_blank, Text.trim_eq_self hcore,
    stripMarker_append s.marker_mem fun c hc => (h.plain hc).2]

/-- Blanks are separators. -/
theorem filter_of_blank {blanks : List Char} (h : ∀ c ∈ blanks, Text.isBlank c = true) :
    blanks.filter (!isSeparator ·) = [] := by
  rw [List.filter_eq_nil_iff]
  intro c hc
  simp [isSeparator, h c hc]

theorem filter_trim (text : List Char) :
    (Text.trim text).filter (!isSeparator ·) = text.filter (!isSeparator ·) := by
  obtain ⟨lead, trail, htext, hlead, htrail⟩ := Text.exists_trim text
  conv_rhs => rw [htext]
  simp [List.filter_append, filter_of_blank hlead, filter_of_blank htrail]

theorem filter_rdropWhile (text : List Char) :
    (text.rdropWhile Text.isBlank).filter (!isSeparator ·) = text.filter (!isSeparator ·) := by
  have htrail : (text.rtakeWhile Text.isBlank).filter (!isSeparator ·) = [] :=
    filter_of_blank fun c hc => List.mem_rtakeWhile_imp hc
  conv_rhs => rw [← List.rdropWhile_append_rtakeWhile (p := Text.isBlank) (l := text)]
  rw [List.filter_append, htrail, List.append_nil]

/-- If there are separators among the digits, the reader of a packet looks at the same digits. -/
theorem Spelling.filter_eq (s : Spelling) {bytes : Bytes}
    (h : Spells (s.body.filter (!isSeparator ·)) bytes) :
    (stripMarker (Text.trim s.text.toList)).filter (!isSeparator ·) =
      s.body.filter (!isSeparator ·) := by
  have hx : ∀ c ∈ s.body, c ≠ 'x' ∧ c ≠ 'X' := by
    intro c hc
    by_cases hsep : isSeparator c = true
    · constructor
      · rintro rfl
        revert hsep
        decide
      · rintro rfl
        revert hsep
        decide
    · exact (h.plain (List.mem_filter.mpr ⟨hc, by simpa using hsep⟩)).2
  rw [Spelling.text, String.toList_ofList, List.append_assoc s.lead,
    Text.trim_append s.lead_blank s.trail_blank]
  have hmarker := s.marker_mem
  simp only [markers, List.mem_cons, List.not_mem_nil, or_false] at hmarker
  rcases hmarker with hm | hm | hm
  · obtain ⟨lead, trail, hbody, -⟩ := Text.exists_trim s.body
    have hstrip : stripMarker ([] ++ Text.trim s.body) = Text.trim s.body := by
      refine stripMarker_append (by decide) fun c hc => hx c ?_
      rw [hbody]
      simp [hc]
    rw [hm, List.nil_append]
    rw [List.nil_append] at hstrip
    rw [hstrip, filter_trim]
  · rw [hm]
    show (stripMarker (Text.trim ('0' :: 'x' :: s.body))).filter _ = _
    rw [Text.trim_cons_cons rfl rfl]
    exact filter_rdropWhile s.body
  · rw [hm]
    show (stripMarker (Text.trim ('0' :: 'X' :: s.body))).filter _ = _
    rw [Text.trim_cons_cons rfl rfl]
    exact filter_rdropWhile s.body

/-! ### The two readers -/

/-- A field of a rule is read as some bytes if and only if it is a spelling of them: blanks, a
marker or none, and the digits of the bytes, each in either case. A packet may also have blanks and
colons anywhere behind the marker. What is read as a field is read as a packet of the same bytes. -/
theorem readers_exact (text : String) (bytes : Bytes) :
    (readField text = .ok bytes ↔ ∃ s : Spelling, s.text = text ∧ Spells s.body bytes) ∧
    (readDump text = .ok bytes ↔
      ∃ s : Spelling, s.text = text ∧ Spells (s.body.filter (!isSeparator ·)) bytes) ∧
    (readField text = .ok bytes → readDump text = .ok bytes) := by
  have hfield : readField text = .ok bytes ↔
      ∃ s : Spelling, s.text = text ∧ Spells s.body bytes := by
    rw [readField, decode_eq_ok_iff]
    constructor
    · intro h
      obtain ⟨s, htext, hbody⟩ := exists_spelling text
      exact ⟨s, htext, hbody ▸ h⟩
    · rintro ⟨s, rfl, h⟩
      rwa [s.body_eq h]
  have hdump : readDump text = .ok bytes ↔
      ∃ s : Spelling, s.text = text ∧ Spells (s.body.filter (!isSeparator ·)) bytes := by
    rw [readDump, decode_eq_ok_iff]
    constructor
    · intro h
      obtain ⟨s, htext, hbody⟩ := exists_spelling text
      exact ⟨s, htext, hbody ▸ h⟩
    · rintro ⟨s, rfl, h⟩
      rwa [s.filter_eq h]
  refine ⟨hfield, hdump, ?_⟩
  rw [hfield, hdump]
  rintro ⟨s, htext, h⟩
  have hall : s.body.filter (!isSeparator ·) = s.body := by
    rw [List.filter_eq_self]
    intro c hc
    simp [(h.plain hc).1]
  exact ⟨s, htext, by rwa [hall]⟩

/-- Digits of both cases behind a marker, with a separator before and inside of a byte, and blanks
that are no spaces. -/
theorem readers_exact_separated :
    readField "\t0X4fA0 " = .ok [0x4F, 0xA0] ∧ readDump "\t0X4fA0 " = .ok [0x4F, 0xA0] ∧
      readDump "\t0X:4 fA\n0 " = .ok [0x4F, 0xA0] := by
  obtain ⟨hfield, -, hagree⟩ := readers_exact "\t0X4fA0 " [0x4F, 0xA0]
  obtain ⟨-, hdump, -⟩ := readers_exact "\t0X:4 fA\n0 " [0x4F, 0xA0]
  have hread : readField "\t0X4fA0 " = .ok [0x4F, 0xA0] := by
    exact hfield.mpr ⟨⟨['\t'], ['0', 'X'], ['4', 'f', 'A', '0'], [' '],
      List.all_eq_true.mp (by decide), by decide, List.all_eq_true.mp (by decide)⟩, rfl, by decide⟩
  refine ⟨hread, hagree hread, hdump.mpr ⟨⟨['\t'], ['0', 'X'],
    [':', '4', ' ', 'f', 'A', '\n', '0'], [' '], List.all_eq_true.mp (by decide), by decide,
    List.all_eq_true.mp (by decide)⟩, rfl, by decide⟩⟩

end Hex

end RuleChain

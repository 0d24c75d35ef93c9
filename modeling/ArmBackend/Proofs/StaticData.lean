import Mathlib.Data.List.Induction
import ArmBackend.StaticData
import ArmBackend.Proofs.Machine.Lines

/-!
# What an assembler reads in the data section

A reader of quoted text with the escapes of an assembler, and from it a reader of a whole data section, line
by line. Neither knows how the section was written. The section of a table reads back as its labels and the
UTF-8 bytes of its texts.
-/

namespace ArmBackend

/-! ## Reading quoted text -/

namespace Asciz

def shortEscape? : Char → Option UInt8
  | '"' => some 34
  | '\\' => some 92
  | 'n' => some 10
  | 't' => some 9
  | 'r' => some 13
  | _ => none

def octalValue? (c : Char) : Option Nat :=
  if '0' ≤ c ∧ c ≤ '7' then some (c.toNat - 48) else none

def octalByte? (a b c : Char) : Option UInt8 := do
  let n := 64 * (← octalValue? a) + 8 * (← octalValue? b) + (← octalValue? c)
  if n < 256 then some (.ofNat n) else none

def Printable (c : Char) : Prop := 32 ≤ c.toNat ∧ c.toNat ≤ 126

instance (c : Char) : Decidable (Printable c) := inferInstanceAs (Decidable (_ ∧ _))

/-- Reads text after its opening quote: the bytes up to the closing quote, and what follows that quote. -/
def read : List Char → Option (List UInt8 × List Char)
  | [] => none
  | '"' :: rest => some ([], rest)
  | '\\' :: a :: rest =>
    match shortEscape? a with
    | some byte => (read rest).map (·.map (byte :: ·) id)
    | none =>
      match rest with
      | b :: c :: rest => do
        let byte ← octalByte? a b c
        (read rest).map (·.map (byte :: ·) id)
      | _ => none
  | c :: rest => if Printable c then (read rest).map (·.map (.ofNat c.toNat :: ·) id) else none

theorem octalByte?_octalDigit {n : Nat} (h : n < 256) :
    octalByte? (octalDigit (n / 64)) (octalDigit (n / 8)) (octalDigit n) = some (.ofNat n) := by
  have hdigit : ∀ n, octalValue? (octalDigit n) = some (n % 8) := fun n =>
    (by decide : ∀ d < 8, octalValue? (Char.ofNat (48 + d)) = some d) _ (Nat.mod_lt n (by decide))
  have hvalue : 64 * (n / 64 % 8) + 8 * (n / 8 % 8) + n % 8 = n := by omega
  simp only [octalByte?, hdigit, Option.bind_eq_bind, Option.bind_some, hvalue, if_pos h]

theorem shortEscape?_octalDigit (n : Nat) : shortEscape? (octalDigit n) = none :=
  (by decide : ∀ d < 8, shortEscape? (Char.ofNat (48 + d)) = none) _ (Nat.mod_lt n (by decide))

theorem read_printable {n : Nat} (hquote : n ≠ 34) (hescape : n ≠ 92) (hlow : 32 ≤ n) (hhigh : n ≤ 126)
    (rest : List Char) :
    read (Char.ofNat n :: rest) = (read rest).map (·.map (.ofNat n :: ·) id) := by
  have htoNat : (Char.ofNat n).toNat = n :=
    (by decide : ∀ n < 127, (Char.ofNat n).toNat = n) n (by omega)
  have hprintable : Printable (Char.ofNat n) := by
    rw [Printable, htoNat]
    exact ⟨hlow, hhigh⟩
  have hne : ∀ c : Char, c.toNat ≠ n → Char.ofNat n ≠ c := fun c hc heq => hc (by rw [← heq, htoNat])
  rw [read, if_pos hprintable, htoNat]
  · exact fun heq => hne '"' (Ne.symm hquote) heq
  · exact fun _ _ heq => absurd heq (hne '\\' (Ne.symm hescape))

/-- An escape is read as its byte, whatever follows it. -/
theorem read_escapeByte (byte : UInt8) (rest : List Char) :
    read (escapeByte byte ++ rest) = (read rest).map (·.map (byte :: ·) id) := by
  have hbyte : UInt8.ofNat byte.toNat = byte := UInt8.ofNat_toNat
  have hshort : ∀ a value, shortEscape? a = some value → byte.toNat = value.toNat →
      read ('\\' :: a :: rest) = (read rest).map (·.map (byte :: ·) id) := fun a value ha hvalue => by
    rw [UInt8.toNat_inj.mp hvalue, read.eq_def]
    simp only [ha]
  rw [escapeByte]
  split
  case isTrue hn => exact hshort '"' 34 rfl hn
  split
  case isTrue hn => exact hshort '\\' 92 rfl hn
  split
  case isTrue hn => exact hshort 'n' 10 rfl hn
  split
  case isTrue hn => exact hshort 't' 9 rfl hn
  split
  case isTrue hn => exact hshort 'r' 13 rfl hn
  case isFalse hquote hescape _ _ _ =>
    split
    case isTrue hrange =>
      rw [List.singleton_append, read_printable hquote hescape hrange.1 hrange.2, hbyte]
    case isFalse =>
      simp only [List.cons_append, List.nil_append, read, shortEscape?_octalDigit,
        octalByte?_octalDigit (UInt8.toNat_lt byte), hbyte]
      rfl

theorem read_escapeBytes (bytes : List UInt8) (rest : List Char) :
    read (bytes.flatMap escapeByte ++ '"' :: rest) = some (bytes, rest) := by
  induction bytes with
  | nil => rfl
  | cons byte bytes ih => simp [read_escapeByte, ih]

theorem read_escape (content : String) (rest : List Char) :
    read ((escape content).toList ++ '"' :: rest) = some (utf8 content, rest) := by
  rw [escape, String.toList_ofList, read_escapeBytes]

theorem printable_of_all {chars : List Char} (h : (chars.all fun c => Printable c) = true) :
    ∀ c ∈ chars, Printable c := by
  simpa using h

theorem printable_escapeByte (byte : UInt8) : ∀ c ∈ escapeByte byte, Printable c := by
  have h : ∀ n < 256, ((escapeByte (.ofNat n)).all fun c => Printable c) = true := by
    decide +kernel
  have hbyte := h byte.toNat (UInt8.toNat_lt byte)
  rw [UInt8.ofNat_toNat] at hbyte
  exact printable_of_all hbyte

theorem printable_escape (content : String) : ∀ c ∈ (escape content).toList, Printable c := by
  rw [escape, String.toList_ofList]
  intro c hc
  obtain ⟨byte, -, hc⟩ := List.mem_flatMap.mp hc
  exact printable_escapeByte byte c hc

theorem utf8_eq_toUTF8 (text : String) : utf8 text = text.toUTF8.data.toList := by
  rw [String.toUTF8_eq_toByteArray, ← String.utf8Encode_toList, List.utf8Encode, List.toList_data_toByteArray, utf8]

end Asciz

/-! ## Reading a section -/

namespace StaticData

def readLabel (line : List Char) : Option String :=
  if line.getLast? = some ':' then some (String.ofList line.dropLast) else none

/-- The bytes of the string that a line stores, without its terminating zero. Nothing may follow the string. -/
def readString (line : List Char) : Option (List UInt8) :=
  match (unindent line).dropPrefix? ".asciz \"".toList with
  | some quoted =>
    match Asciz.read quoted with
    | some (bytes, []) => some bytes
    | _ => none
  | none => none

def readData : List (List Char) → Option (List (String × List UInt8))
  | [[]] => some []
  | label :: string :: lines => do
    let name ← readLabel label
    let bytes ← readString string
    return (name, bytes) :: (← readData lines)
  | _ => none

def readSection (text : String) : Option (List (String × List UInt8)) :=
  match text.toList.splitOn '\n' with
  | header :: lines => if unindent header = ".data".toList then readData lines else none
  | [] => none

/-! ## Interning -/

def internAll (texts : List String) : StaticData :=
  texts.foldl (fun table text => (table.intern text).2) {}

theorem intern_texts (table : StaticData) (text : String) :
    (table.intern text).2.texts = table.texts ++ if text ∈ table.texts then [] else [text] := by
  rw [intern]
  cases hfound : table.texts.idxOf? text with
  | some id =>
    have hmem : text ∈ table.texts := List.isSome_idxOf?.mp (by rw [hfound]; rfl)
    simp [hmem]
  | none => simp [List.idxOf?_eq_none_iff.mp hfound]

theorem intern_label (table : StaticData) (text : String) :
    ∃ id, (table.intern text).2.texts[id]? = some text ∧ (table.intern text).1 = .datum .string id := by
  rw [intern]
  cases hfound : table.texts.idxOf? text with
  | some id =>
    obtain ⟨hlt, heq, -⟩ := List.idxOf?_eq_some_iff.mp hfound
    exact ⟨id, List.getElem?_eq_some_iff.mpr ⟨hlt, heq⟩, rfl⟩
  | none => exact ⟨table.texts.length, by simp, rfl⟩

theorem internAll_append (earlier later : List String) :
    internAll (earlier ++ later) = later.foldl (fun table text => (table.intern text).2) (internAll earlier) :=
  List.foldl_append

theorem internAll_texts (texts : List String) : (internAll texts).texts = texts.eraseDups := by
  induction texts using List.reverseRecOn with
  | nil => rfl
  | append_singleton texts text ih =>
    rw [internAll_append, List.foldl_cons, List.foldl_nil, intern_texts, ih, List.eraseDups_append]
    by_cases hmem : text ∈ texts <;> simp [hmem, List.removeAll, List.eraseDups_cons]

theorem internAll_prefix (earlier later : List String) :
    (internAll earlier).texts <+: (internAll (earlier ++ later)).texts := by
  rw [internAll_texts, internAll_texts, List.eraseDups_append]
  exact List.prefix_append _ _

/-! ## The section of a table -/

theorem code_of_datum (datum : Datum) : datum.code = [.label datum.label, .directive (.asciz datum.text)] := by
  obtain ⟨id, kind, text⟩ := datum
  cases kind
  rfl

theorem legible_label (datum : Datum) : Legible datum.label.text := by
  obtain ⟨id, kind, text⟩ := datum
  cases kind
  simp +decide [Datum.label, Label.text, toString, DatumKind.text]

theorem code_proper (table : StaticData) : ∀ line ∈ table.code, line.Proper := by
  rw [code]
  refine List.forall_mem_cons.mpr ⟨Legible.plain (by decide), fun line hline => ?_⟩
  obtain ⟨datum, -, hline⟩ := List.mem_flatMap.mp hline
  rw [code_of_datum] at hline
  simp only [List.mem_cons, List.not_mem_nil, or_false] at hline
  rcases hline with rfl | rfl
  · exact legible_label datum
  · refine Directive.plain fun label heq => ?_
    cases heq

theorem readLabel_label (indent : Nat) (label : Label) :
    readLabel (Line.text indent (.label label)).toList = some label.text := by
  simp [readLabel, Line.text]

theorem asciz_toList (text : String) : (Directive.asciz text).text.toList =
    ".asciz \"".toList ++ ((Asciz.escape text).toList ++ ['"']) := by
  simp [Directive.text, toString]

theorem readString_asciz (indent : Nat) (text : String) :
    readString (Line.text indent (.directive (.asciz text))).toList = some (Asciz.utf8 text) := by
  have hdrop : ∀ rest, (".asciz \"".toList ++ rest).dropPrefix? ".asciz \"".toList = some rest := fun rest => by
    simp [List.dropPrefix?]
  rw [readString, unindent_directive, asciz_toList, hdrop]
  simp only [Asciz.read_escape]

theorem readData_code (indent : Nat) (data : List Datum) :
    readData ((data.flatMap Datum.code).map (fun line => (line.text indent).toList) ++ [[]]) =
      some (data.map fun datum => (datum.label.text, Asciz.utf8 datum.text)) := by
  induction data with
  | nil => rfl
  | cons datum data ih =>
    rw [List.flatMap_cons, code_of_datum, List.map_append, List.append_assoc, List.map_cons, List.map_cons,
      List.map_nil, List.cons_append, List.cons_append, List.nil_append, readData, readLabel_label,
      readString_asciz, ih]
    rfl

theorem readSection_render (indent : Nat) (table : StaticData) :
    readSection (table.code.render indent) =
      some (table.data.map fun datum => (datum.label.text, Asciz.utf8 datum.text)) := by
  have hlines := @Code.splitOn_render indent _ (code_proper table)
  rw [code, List.map_cons, List.cons_append] at hlines
  rw [readSection, code, hlines]
  simp only [unindent_directive, readData_code]
  rfl

theorem printable_label (datum : Datum) : ∀ c ∈ datum.label.text.toList, Asciz.Printable c := by
  have hdigits : ∀ c ∈ datum.id.repr.toList, Asciz.Printable c := fun c hc => by
    rw [Nat.toList_repr] at hc
    have hdigit := Nat.isDigit_of_mem_toDigits (by decide) (by decide) hc
    obtain ⟨hlow, hhigh⟩ := Char.isDigit_iff_toNat.mp hdigit
    exact ⟨Nat.le_trans (by decide) hlow, Nat.le_trans hhigh (by decide)⟩
  have htext : datum.label.text.toList = "static.String.".toList ++ datum.id.repr.toList := by
    obtain ⟨id, kind, text⟩ := datum
    cases kind
    simp [Datum.label, Label.text, toString, DatumKind.text]
  rw [htext]
  exact List.forall_mem_append.mpr ⟨Asciz.printable_of_all (by decide), hdigits⟩

theorem printable_line (indent : Nat) (table : StaticData) :
    ∀ line ∈ table.code, ∀ c ∈ (line.text indent).toList, Asciz.Printable c := by
  have hdirective : ∀ directive : Directive, (∀ c ∈ directive.text.toList, Asciz.Printable c) →
      ∀ c ∈ (Line.text indent (.directive directive)).toList, Asciz.Printable c := fun directive h c hc => by
    rw [Line.text, String.toList_append, Code.pad, String.toList_ofList, List.mem_append] at hc
    rcases hc with hc | hc
    · rw [List.eq_of_mem_replicate hc]
      decide
    · exact h c hc
  rw [code]
  refine List.forall_mem_cons.mpr ⟨hdirective .dataSection (Asciz.printable_of_all (by decide)),
    fun line hline => ?_⟩
  obtain ⟨datum, -, hline⟩ := List.mem_flatMap.mp hline
  rw [code_of_datum] at hline
  simp only [List.mem_cons, List.not_mem_nil, or_false] at hline
  rcases hline with rfl | rfl
  · rw [Line.text, String.toList_append]
    exact List.forall_mem_append.mpr ⟨printable_label datum, Asciz.printable_of_all (by decide)⟩
  · refine hdirective _ ?_
    rw [asciz_toList]
    refine List.forall_mem_append.mpr ⟨Asciz.printable_of_all (by decide), ?_⟩
    exact List.forall_mem_append.mpr ⟨Asciz.printable_escape _,
      Asciz.printable_of_all (by decide)⟩

/-- The section of a new table after any texts were interned, at any indentation and behind any text, reads
back as the distinct texts in the order in which they were first interned. -/
theorem data_section_reads_back (texts : List String) (listing : Listing) :
    ∃ written, (listing.write (internAll texts).code).text = listing.text ++ written ∧
      readSection written = some (texts.eraseDups.mapIdx fun id text =>
        ((Label.datum .string id).text, text.toUTF8.data.toList)) ∧
      (∀ line ∈ written.toList.splitOn '\n', ∀ c ∈ line, Asciz.Printable c) ∧
      ∀ earlier text later, texts = earlier ++ text :: later →
        ∃ id, texts.eraseDups[id]? = some text ∧
          ((internAll earlier).intern text).1 = .datum .string id := by
  refine ⟨(internAll texts).code.render listing.indent, rfl, ?_, ?_, ?_⟩
  · rw [readSection_render, data, internAll_texts]
    simp [Asciz.utf8_eq_toUTF8, List.mapIdx_eq_zipIdx_map, Datum.label, Function.comp_def]
  · intro line hline
    rw [Code.splitOn_render (code_proper _), List.mem_append, List.mem_map, List.mem_singleton] at hline
    rcases hline with ⟨line, hmem, rfl⟩ | rfl
    · exact printable_line listing.indent _ line hmem
    · exact fun c hc => nomatch hc
  · rintro earlier text later rfl
    obtain ⟨id, hid, hlabel⟩ := intern_label (internAll earlier) text
    have hprefix := internAll_prefix (earlier ++ [text]) later
    rw [List.append_assoc, List.singleton_append, internAll_texts (earlier ++ text :: later),
      internAll_append, List.foldl_cons, List.foldl_nil] at hprefix
    obtain ⟨hlt, heq⟩ := List.getElem?_eq_some_iff.mp hid
    exact ⟨id, (List.prefix_iff_getElem?.mp hprefix id hlt).trans (congrArg some heq), hlabel⟩

end StaticData

end ArmBackend

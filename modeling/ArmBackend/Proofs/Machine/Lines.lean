import ArmBackend.Assembly.Listing
import ArmBackend.Proofs.Machine.Labels
import ArmBackend.Proofs.Machine.References

/-!
# Lines of a text

Code is written with one line of text for each of its lines. The lines that end with a colon are those of
the labels, as long as the labels have no colons and newlines themselves.
-/

namespace ArmBackend

def Reference.label : Reference → Label
  | .branch label | .call label | .datum label => label

/-! ## Words -/

/-- Whether the character may stand anywhere in a line that defines no label. -/
def Inline (c : Char) : Prop := c ≠ '\n' ∧ c ≠ '\r' ∧ c ≠ ':'

instance (c : Char) : Decidable (Inline c) := inferInstanceAs (Decidable (_ ∧ _ ∧ _))

def Legible (text : String) : Prop := ∀ c ∈ text.toList, Inline c

instance (text : String) : Decidable (Legible text) := List.decidableBAll Inline text.toList

namespace Legible

@[simp] theorem append {a b : String} : Legible (a ++ b) ↔ Legible a ∧ Legible b := by
  simp [Legible, or_imp, forall_and]

theorem digits {base : Nat} (hbase : 1 < base) (hle : base ≤ 16) (n : Nat) :
    ∀ c ∈ Nat.toDigits base n, Inline c := by
  have hdigit : ∀ d < 16, Inline (Nat.digitChar d) := by decide
  induction n using Nat.strongRecOn with
  | ind n ih =>
    rw [Nat.toDigits_eq_if hbase]
    split
    case isTrue hlt => simpa using hdigit n (by omega)
    case isFalse hle' =>
      simp only [List.mem_append, List.mem_singleton]
      rintro c (hc | rfl)
      · exact ih _ (Nat.div_lt_self (by omega) hbase) c hc
      · exact hdigit _ (Nat.lt_of_lt_of_le (Nat.mod_lt _ (by omega)) hle)

@[simp] theorem nat (n : Nat) : Legible n.repr := by
  rw [Legible, Nat.toList_repr]
  exact digits (by decide) (by decide) n

@[simp] theorem int (n : Int) : Legible n.repr := by
  rw [Int.repr_eq_if]
  split
  · exact nat _
  · exact append.mpr ⟨by decide, nat _⟩

@[simp] theorem hex (n : Nat) : Legible (hexText n) := by
  rw [Legible, hexText, String.toList_ofList]
  exact digits (by decide) (by decide) n

@[simp] theorem register (reg : Register) : Legible reg.text := by
  cases reg <;> simp +decide [Register.text, toString]

@[simp] theorem lowRegister (reg : Register) : Legible reg.lowText := by
  cases reg <;> simp +decide [Register.lowText, toString]

@[simp] theorem operand (width : Width) (reg : Register) : Legible (width.operandText reg) := by
  cases width <;> simp [Width.operandText]

@[simp] theorem address (address : Address) : Legible address.text := by
  cases address <;> simp +decide [Address.text, toString]

@[simp] theorem cond (cond : Cond) : Legible cond.code := by cases cond <;> decide

@[simp] theorem mnemonic (op : Arith) : Legible op.mnemonic := by cases op <;> decide

@[simp] theorem loadMnemonic (width : Width) : Legible width.loadMnemonic := by
  cases width <;> decide

@[simp] theorem storeMnemonic (width : Width) : Legible width.storeMnemonic := by
  cases width <;> decide

theorem instr {instr : Instr}
    (h : ∀ reference, instr.reference? = some reference → Legible reference.label.text) :
    Legible instr.text := by
  cases instr with
  | b label => simpa +decide [Instr.text, toString, Reference.label] using h (.branch label) rfl
  | bCond cond label => simpa +decide [Instr.text, toString, Reference.label] using h (.branch label) rfl
  | cbnz reg label => simpa +decide [Instr.text, toString, Reference.label] using h (.branch label) rfl
  | bl label => simpa +decide [Instr.text, toString, Reference.label] using h (.call label) rfl
  | adrp dst label => simpa +decide [Instr.text, toString, Reference.label] using h (.datum label) rfl
  | addPageOffset dst src label => simpa +decide [Instr.text, toString, Reference.label] using h (.datum label) rfl
  | _ => simp +decide [Instr.text, toString]

end Legible

/-! ## Lines -/

namespace Listing

/-- The lines of a text that end with a colon. -/
def labelLines (text : String) : List String :=
  ((reversedLines [] text.toList).filter (·.head? == some ':')).map fun line => String.ofList line.reverse

theorem reversedLines_newline {line : List Char} (hline : '\n' ∉ line) (start rest : List Char) :
    reversedLines start (line ++ '\n' :: rest) =
      dropReturn (line.reverse ++ start) :: reversedLines [] rest := by
  induction line generalizing start with
  | nil => rfl
  | cons c line ih =>
    rw [List.mem_cons, not_or] at hline
    rw [List.cons_append, reversedLines, ih hline.2, List.reverse_cons, List.append_assoc]
    · rfl
    · exact fun heq => hline.1 heq.symm

end Listing

/-- Whether a text is one line that does not end like the definition of a label. -/
def Plain (text : String) : Prop := '\n' ∉ text.toList ∧ ∀ c ∈ text.toList.getLast?, Inline c

theorem Legible.plain {text : String} (h : Legible text) : Plain text :=
  ⟨fun hmem => (h _ hmem).1 rfl, fun c hc => h c (List.mem_of_getLast? hc)⟩

theorem Plain.indent {text : String} (h : Plain text) (indent : Nat) : Plain (Code.pad indent ++ text) := by
  have hspace : ∀ c ∈ List.replicate indent ' ', Inline c := fun c hc => by
    rw [List.eq_of_mem_replicate hc]
    decide
  refine ⟨?_, fun c hc => ?_⟩
  · rw [String.toList_append, Code.pad, String.toList_ofList, List.mem_append, not_or]
    exact ⟨fun hmem => (hspace _ hmem).1 rfl, h.1⟩
  · rw [String.toList_append, Code.pad, String.toList_ofList, List.getLast?_append, Option.mem_def,
      Option.or_eq_some_iff] at hc
    rcases hc with hc | ⟨-, hc⟩
    · exact h.2 c hc
    · exact hspace c (List.mem_of_getLast? hc)

/-! ### Directives -/

theorem Asciz.newline_not_mem_escape (content : String) : '\n' ∉ (escape content).toList := by
  have hprintable : ∀ n < 127, 32 ≤ n → Char.ofNat n ≠ '\n' := by decide
  have hdigit : ∀ n, octalDigit n ≠ '\n' := fun n =>
    (by decide : ∀ d < 8, Char.ofNat (48 + d) ≠ '\n') _ (Nat.mod_lt n (by decide))
  rw [escape, String.toList_ofList, List.mem_flatMap]
  rintro ⟨byte, -, hmem⟩
  rw [escapeByte] at hmem
  iterate 5
    split at hmem
    · simp at hmem
  split at hmem
  case isTrue hrange =>
    exact hprintable _ (Nat.lt_succ_of_le hrange.2) hrange.1 (List.mem_singleton.mp hmem).symm
  case isFalse =>
    simp only [List.mem_cons, List.not_mem_nil, or_false] at hmem
    rcases hmem with hmem | hmem | hmem | hmem
    · simp at hmem
    all_goals exact hdigit _ hmem.symm

theorem Directive.plain {directive : Directive}
    (h : ∀ label, directive = .global label → Legible label.text) : Plain directive.text := by
  cases directive with
  | textSection => exact Legible.plain (by decide)
  | dataSection => exact Legible.plain (by decide)
  | global label => exact Legible.plain (by simpa +decide [text, toString] using h label rfl)
  | align power => exact Legible.plain (by simp +decide [text, toString])
  | asciz content =>
    have hlist : (text (.asciz content)).toList = (".asciz \"" ++ Asciz.escape content).toList ++ ['"'] := by
      simp [text, toString]
    refine ⟨?_, fun c hc => ?_⟩
    · rw [hlist]
      simpa using Asciz.newline_not_mem_escape content
    · rw [hlist, List.getLast?_concat] at hc
      cases hc
      decide

def Line.Proper : Line → Prop
  | .label defined => Legible defined.text
  | .instr step => Plain step.text
  | .directive content => Plain content.text

theorem Code.proper_of_legible {code : Code} (hlabels : ∀ label ∈ code.labels, Legible label.text)
    (hreferences : ∀ reference ∈ code.references, Legible reference.label.text)
    (hglobals : ∀ label, .directive (.global label) ∈ code → Legible label.text) :
    ∀ line ∈ code, line.Proper := by
  intro line hmem
  cases line with
  | label label => exact hlabels label (List.mem_filterMap.mpr ⟨_, hmem, rfl⟩)
  | instr instr =>
    refine (Legible.instr fun reference href => ?_).plain
    exact hreferences reference (List.mem_filterMap.mpr ⟨_, hmem, href⟩)
  | directive directive => exact Directive.plain fun label hlabel => hglobals label (hlabel ▸ hmem)

/-! ### Written lines -/

def Line.text (indent : Nat) : Line → String
  | .label defined => defined.text ++ ":"
  | .instr step => Code.pad indent ++ step.text
  | .directive content => Code.pad indent ++ content.text

theorem Code.renderLine_eq (indent : Nat) (line : Line) : renderLine indent line = line.text indent ++ "\n" := by
  cases line with
  | label label => rw [renderLine, Line.text, String.append_assoc]; rfl
  | instr instr => rfl
  | directive directive => rfl

theorem Line.Proper.newline_not_mem {line : Line} (h : line.Proper) (indent : Nat) :
    '\n' ∉ (line.text indent).toList := by
  cases line with
  | label label => simpa [Line.text] using (Legible.plain h).1
  | instr instr => exact (Plain.indent h indent).1
  | directive directive => exact (Plain.indent h indent).1

def unindent (line : List Char) : List Char := line.dropWhile (· == ' ')

theorem unindent_pad (indent : Nat) (text : String) :
    unindent (Code.pad indent ++ text).toList = unindent text.toList := by
  rw [String.toList_append, Code.pad, String.toList_ofList]
  induction indent with
  | zero => rfl
  | succ indent ih => rwa [unindent, List.replicate_succ, List.cons_append, List.dropWhile_cons_of_pos rfl]

theorem unindent_directive (indent : Nat) (directive : Directive) :
    unindent (Line.text indent (.directive directive)).toList = directive.text.toList := by
  rw [Line.text, unindent_pad]
  cases directive <;> simp [unindent, Directive.text, toString]

/-- Code is written as its lines, one by one. Nothing follows the last newline. -/
theorem Code.splitOn_render {indent : Nat} {code : Code} (h : ∀ line ∈ code, line.Proper) :
    (code.render indent).toList.splitOn '\n' = code.map (fun line => (line.text indent).toList) ++ [[]] := by
  induction code with
  | nil => rfl
  | cons line code ih =>
    obtain ⟨hline, hcode⟩ := List.forall_mem_cons.mp h
    have hlist : (Code.render indent (line :: code)).toList =
        (line.text indent).toList ++ '\n' :: (Code.render indent code).toList := by
      simp [Code.render_cons, Code.renderLine_eq]
    rw [hlist, List.splitOn_append_cons_self_of_not_mem (hline.newline_not_mem indent), ih hcode,
      List.map_cons, List.cons_append]

namespace Listing

theorem dropReturn_of_inline {c : Char} (h : Inline c) (line : List Char) :
    dropReturn (c :: line) = c :: line := by
  rw [dropReturn]
  exact fun _ heq => h.2.1 (List.cons.inj heq).1

theorem labelLines_plain {line : String} (h : Plain line) (rest : String) :
    labelLines (line ++ "\n" ++ rest) = labelLines rest := by
  have hlist : (line ++ "\n" ++ rest).toList = line.toList ++ '\n' :: rest.toList := by simp
  have hhead : ((dropReturn line.toList.reverse).head? == some ':') = false := by
    cases hline : line.toList.reverse with
    | nil => rfl
    | cons c start =>
      have hlast : line.toList.getLast? = some c := by rw [← List.head?_reverse, hline]; rfl
      have hc := h.2 c hlast
      rw [dropReturn_of_inline hc]
      simpa using hc.2.2
  rw [labelLines, hlist, reversedLines_newline h.1, List.append_nil, List.filter_cons, hhead]
  rfl

theorem labelLines_label {name : String} (h : Legible name) (rest : String) :
    labelLines (name ++ ":\n" ++ rest) = (name ++ ":") :: labelLines rest := by
  have hlist : (name ++ ":\n" ++ rest).toList = (name.toList ++ [':']) ++ '\n' :: rest.toList := by simp
  have hline : '\n' ∉ name.toList ++ [':'] := by simpa using h.plain.1
  have hreverse : dropReturn (name.toList ++ [':']).reverse = ':' :: name.toList.reverse := by
    rw [List.reverse_append]
    rfl
  rw [labelLines, hlist, reversedLines_newline hline, List.append_nil, hreverse, List.filter_cons_of_pos rfl,
    List.map_cons]
  congr
  simp

theorem labelLines_render {indent : Nat} {code : Code} (h : ∀ line ∈ code, line.Proper) :
    labelLines (code.render indent) = code.labels.map fun label => label.text ++ ":" := by
  induction code with
  | nil => rfl
  | cons line code ih =>
    obtain ⟨hline, hcode⟩ := List.forall_mem_cons.mp h
    rw [Code.render_cons]
    cases line with
    | label label =>
      rw [Code.renderLine, labelLines_label hline, ih hcode, Code.labels_label, List.map_cons]
    | instr instr => rw [Code.renderLine, labelLines_plain (hline.indent indent), ih hcode, Code.labels_instr]
    | directive directive =>
      rw [Code.renderLine, labelLines_plain (hline.indent indent), ih hcode, Code.labels_directive]

end Listing

end ArmBackend

import ArmBackend.Options
import ArmBackend.Proofs.Machine.Run
import ArmBackend.Proofs.Machine.Straight
import Mathlib.Data.List.Nodup

/-!
# Labels of a text

Branches find their labels by how these are written. Labels are written differently unless they are the
same, so a label that is defined once leads to its line.
-/

namespace ArmBackend

namespace Label

theorem toDigits_inj {a b : Nat} : Nat.toDigits 10 a = Nat.toDigits 10 b ↔ a = b := by
  refine ⟨fun h => ?_, congrArg _⟩
  rw [← @Nat.ofDigitChars_ten_toDigits a, h, Nat.ofDigitChars_ten_toDigits]

/-- Labels that a unit may define. Symbols start with an underscore, and labels in helpers with an L. -/
def Placed : Label → Prop
  | .named name => name.toList.head? = some '_' ∨ name.toList.head? = some 'L'
  | _ => True

theorem placed_functionLabel {options : Options} (hunderscore : options.symbolPrefix = "_") (name : String) :
    (options.functionLabel name).Placed := by
  simp [Options.functionLabel, hunderscore, Placed]

/-- Labels are told apart by how they are written. -/
theorem text_inj {a b : Label} (ha : a.Placed) (hb : b.Placed) (h : a.text = b.text) : a = b := by
  rw [← String.toList_inj] at h
  cases a <;> cases b <;>
    simp_all [Placed, text, toString, Nat.toList_repr, toDigits_inj, String.ext_iff]
  -- A symbol that is written like a label of another kind starts with another character.
  all_goals
    rw [← h] at hb
    simp at hb

end Label

namespace Code

def labels (code : Code) : List Label :=
  code.filterMap fun
    | .label label => some label
    | _ => none

@[simp] theorem labels_nil : labels [] = [] := rfl

@[simp] theorem labels_label (label : Label) (code : Code) :
    labels (.label label :: code) = label :: labels code := rfl

@[simp] theorem labels_instr (instr : Instr) (code : Code) :
    labels (.instr instr :: code) = labels code := rfl

@[simp] theorem labels_directive (directive : Directive) (code : Code) :
    labels (.directive directive :: code) = labels code := rfl

@[simp] theorem labels_append (a b : Code) : labels (a ++ b) = labels a ++ labels b :=
  List.filterMap_append

@[simp] theorem labels_ofInstrs (instrs : List Instr) : labels (ofInstrs instrs) = [] := by
  induction instrs with
  | nil => rfl
  | cons instr instrs ih => exact ih

theorem mem_labels {code : Code} {label : Label} {i : Nat} (h : code[i]? = some (.label label)) :
    label ∈ code.labels :=
  List.mem_filterMap.mpr ⟨_, List.mem_of_getElem? h, rfl⟩

theorem exists_of_mem_labels {code : Code} {label : Label} (h : label ∈ code.labels) :
    ∃ i : Nat, code[i]? = some (.label label) := by
  obtain ⟨line, hline, heq⟩ := List.mem_filterMap.mp h
  cases line with
  | label =>
    cases heq
    exact List.getElem?_of_mem hline
  | instr | directive => cases heq

theorem labels_frameAddress (dst : Register) (offset : Int) : labels (frameAddress dst offset) = [] := by
  simp only [frameAddress]
  split
  · rfl
  · simp [constant]

theorem labels_adjustStack (change : StackChange) (size : Nat) :
    labels (adjustStack change size) = [] := by
  simp only [adjustStack]
  split
  · cases change <;> rfl
  · split
    · cases change <;> rfl
    · cases change <;> simp [constant]

theorem Straight.labels {calls : Prop} {writes : Int → Ty → Prop} {code : Code} (h : Straight calls writes code) :
    code.labels = [] := by
  induction h with
  | nil => rfl
  | quiet h => exact labels_ofInstrs _
  | @store src offset ty h =>
    simp only [storeSlot, slotAddress]
    split
    · rfl
    · simp [labels_frameAddress]
  | call label hcalls hlive => simp [saveRegs, restoreRegs]
  | trap imm => rfl
  | append _ _ iha ihb => rw [labels_append, iha, ihb, List.append_nil]

theorem label_of_address? {code : Code} {label : Label} {i : Nat} (h : code.address? label = some i) :
    ∃ other, code[i]? = some (.label other) ∧ other.text = label.text := by
  obtain ⟨hlt, hdefines, -⟩ := List.findIdx?_eq_some_iff_getElem.mp h
  rw [List.getElem?_eq_getElem hlt]
  cases hline : code[i] with
  | label other =>
    rw [hline] at hdefines
    exact ⟨other, rfl, beq_iff_eq.mp hdefines⟩
  | instr instr =>
    rw [hline] at hdefines
    cases hdefines
  | directive directive =>
    rw [hline] at hdefines
    cases hdefines

end Code

namespace Image

variable {image : Image} {before code after : Code}

theorem Hosts.mem_labels {pc i : Nat} {label : Label} (h : image.Hosts pc code) (hmem : label ∈ code.labels)
    (haddress : image.code.address? label = some i) : ∃ k, code[k]? = some (.label label) ∧ i = pc + k := by
  obtain ⟨k, hk⟩ := Code.exists_of_mem_labels hmem
  exact ⟨k, hk, Option.some.inj (haddress.symm.trans (h.resolves k label hk))⟩

theorem hosts_of_nodup (hcode : image.code = before ++ code ++ after)
    (hplaced : ∀ label ∈ (before ++ code).labels, label.Placed)
    (hnodup : (before ++ code).labels.Nodup) : image.Hosts before.length code where
  stands := ⟨after, by rw [hcode, List.append_assoc, List.drop_left]⟩
  resolves i label hlabel := by
    have hi := (List.getElem?_eq_some_iff.mp hlabel).1
    have hat : (before ++ code)[before.length + i]? = some (.label label) := by
      rw [List.getElem?_append_right (Nat.le_add_right _ _), Nat.add_sub_cancel_left]
      exact hlabel
    obtain ⟨hlt, hline⟩ := List.getElem?_eq_some_iff.mp hat
    have hfind : (before ++ code).findIdx? (Line.defines label) = some (before.length + i) := by
      refine List.findIdx?_eq_some_iff_getElem.mpr ⟨hlt, ?_, fun j hj => ?_⟩
      · rw [hline]
        exact beq_self_eq_true _
      · rintro hdefines
        have hpairwise := List.pairwise_iff_getElem.mp (List.pairwise_filterMap.mp hnodup) j _
          (Nat.lt_trans hj hlt) hlt hj
        rw [hline] at hpairwise
        cases hother : (before ++ code)[j] with
        | label other =>
          rw [hother] at hdefines hpairwise
          have hmem := Code.mem_labels (List.getElem?_eq_some_iff.mpr ⟨_, hother⟩)
          have heq := Label.text_inj (hplaced _ hmem) (hplaced _ (Code.mem_labels hat))
            (beq_iff_eq.mp hdefines)
          exact hpairwise other rfl label rfl heq
        | instr instr =>
          rw [hother] at hdefines
          cases hdefines
        | directive directive =>
          rw [hother] at hdefines
          cases hdefines
    rw [Code.address?, hcode, List.findIdx?_append, hfind, Option.some_or]

end Image

end ArmBackend

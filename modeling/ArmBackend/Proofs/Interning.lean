import ArmBackend.IndexedData
import ArmBackend.Proofs.Machine.Labels
import ArmBackend.Proofs.StaticData
import Mathlib.Data.Finset.Card

/-!
# Interning

Texts are told apart by the labels that interning returns, and keep them. A table that finds texts through a
hash map does the same as one that searches for them, and never looks outside its data.
-/

namespace ArmBackend

theorem Label.text_datum_inj (kind : DatumKind) {a b : Nat} :
    (Label.datum kind a).text = (Label.datum kind b).text ↔ a = b := by
  refine ⟨fun h => ?_, fun h => by rw [h]⟩
  have hlabel : Label.datum kind a = .datum kind b := Label.text_inj trivial trivial h
  exact (Label.datum.inj hlabel).2

namespace StaticData

variable {table : StaticData} {text : String} {texts : List String}

/-! ## Tables that search for texts -/

/-- The labels that interning the texts in turn returns, and the table after that. -/
def internEach (table : StaticData) : List String → List Label × StaticData
  | [] => ([], table)
  | text :: texts =>
    let (label, table) := table.intern text
    let (labels, table) := table.internEach texts
    (label :: labels, table)

theorem internEach_table (table : StaticData) (texts : List String) :
    (table.internEach texts).2 = texts.foldl (fun table text => (table.intern text).2) table := by
  induction texts generalizing table with
  | nil => rfl
  | cons text texts ih => exact ih (table.intern text).2

theorem texts_intern (table : StaticData) (text : String) :
    table.texts <+: (table.intern text).2.texts := by
  rw [intern_texts]
  exact List.prefix_append _ _

theorem mem_intern (table : StaticData) (text : String) : text ∈ (table.intern text).2.texts := by
  obtain ⟨id, hid, -⟩ := intern_label table text
  exact List.mem_of_getElem? hid

theorem texts_internEach (table : StaticData) (texts : List String) :
    table.texts <+: (table.internEach texts).2.texts := by
  induction texts generalizing table with
  | nil => exact List.prefix_refl _
  | cons text texts ih => exact (texts_intern table text).trans (ih (table.intern text).2)

theorem idxOf_of_le {earlier later : List String} (h : earlier <+: later) (hmem : text ∈ earlier) :
    later.idxOf text = earlier.idxOf text := by
  obtain ⟨rest, rfl⟩ := h
  exact List.idxOf_append_of_mem hmem

theorem intern_label_idxOf (table : StaticData) (text : String) :
    (table.intern text).1 = .datum .string ((table.intern text).2.texts.idxOf text) := by
  rw [intern]
  cases hfound : table.texts.idxOf? text with
  | some id =>
    obtain ⟨hlt, heq, hfirst⟩ := List.idxOf?_eq_some_iff.mp hfound
    have hid : table.texts.idxOf text = id := by grind
    simp only [hid]
  | none =>
    have hmem := List.idxOf?_eq_none_iff.mp hfound
    simp [List.idxOf_append, hmem]

theorem internEach_labels (table : StaticData) (texts : List String) :
    (table.internEach texts).1 =
      texts.map fun text => .datum .string ((table.internEach texts).2.texts.idxOf text) := by
  induction texts generalizing table with
  | nil => rfl
  | cons text texts ih =>
    have hle := texts_internEach (table.intern text).2 texts
    rw [List.map_cons, internEach]
    simp only [idxOf_of_le hle (mem_intern table text), ← intern_label_idxOf, ← ih]

theorem nodup_intern (h : table.texts.Nodup) (text : String) : (table.intern text).2.texts.Nodup := by
  rw [intern_texts]
  split
  · rwa [List.append_nil]
  · rw [List.nodup_append]
    grind

theorem nodup_internAll (texts : List String) : (internAll texts).texts.Nodup := by
  induction texts using List.reverseRecOn with
  | nil => exact List.nodup_nil
  | append_singleton texts text ih =>
    rw [internAll_append]
    exact nodup_intern ih text

theorem mem_internAll : text ∈ (internAll texts).texts ↔ text ∈ texts := by
  rw [internAll_texts, List.mem_eraseDups]

theorem internAll_ordered (texts : List String) :
    (internAll texts).texts.Pairwise fun a b => texts.idxOf a < texts.idxOf b := by
  induction texts using List.reverseRecOn with
  | nil => exact List.Pairwise.nil
  | append_singleton texts text ih =>
    have hold : (internAll texts).texts.Pairwise fun a b =>
        (texts ++ [text]).idxOf a < (texts ++ [text]).idxOf b :=
      ih.imp_of_mem fun ha hb hlt => by
        rwa [List.idxOf_append_of_mem (mem_internAll.mp ha), List.idxOf_append_of_mem (mem_internAll.mp hb)]
    rw [internAll_append, List.foldl_cons, List.foldl_nil, intern_texts]
    split
    case isTrue => rwa [List.append_nil]
    case isFalse hnew =>
      refine List.pairwise_append.mpr ⟨hold, List.pairwise_singleton _ _, fun a ha b hb => ?_⟩
      obtain rfl := List.mem_singleton.mp hb
      have hnew' : b ∉ texts := fun hmem => hnew (mem_internAll.mpr hmem)
      have hlt := List.idxOf_lt_length_iff.mpr (mem_internAll.mp ha)
      rw [List.idxOf_append_of_mem (mem_internAll.mp ha), List.idxOf_append, if_neg hnew']
      omega

/-- A text is stored by the call in which it first occurs, behind the texts of the calls before. -/
theorem internAll_created {id : Nat} (h : (internAll texts).texts[id]? = some text) :
    ∃ earlier later, texts = earlier ++ text :: later ∧ text ∉ earlier ∧ (internAll earlier).size = id := by
  have hmem := mem_internAll.mp (List.mem_of_getElem? h)
  obtain ⟨earlier, later, rfl, hnew⟩ := List.eq_append_cons_of_mem hmem
  refine ⟨earlier, later, rfl, hnew, ?_⟩
  have hnew' : text ∉ (internAll earlier).texts := fun hmem => hnew (mem_internAll.mp hmem)
  have hle := internAll_prefix (earlier ++ [text]) later
  rw [internAll_append, List.foldl_cons, List.foldl_nil, intern_texts, if_neg hnew', List.append_assoc,
    List.singleton_append] at hle
  obtain ⟨rest, hrest⟩ := hle
  have hnodup := nodup_internAll (earlier ++ text :: later)
  rw [← hrest] at h hnodup
  obtain ⟨hlt, hid⟩ := List.getElem?_eq_some_iff.mp h
  have hsize : (internAll earlier).texts.length <
      ((internAll earlier).texts ++ [text] ++ rest).length := by simp
  have hget : ((internAll earlier).texts ++ [text] ++ rest)[(internAll earlier).texts.length] = text := by simp
  exact hnodup.getElem_inj_iff.mp (hget.trans hid.symm)

theorem size_internAll (texts : List String) : (internAll texts).size = texts.toFinset.card := by
  have hsame : (internAll texts).texts.toFinset = texts.toFinset := by
    ext text
    simp only [List.mem_toFinset, mem_internAll]
  rw [size, ← hsame, List.toFinset_card_of_nodup (nodup_internAll texts)]

theorem getElem?_data (table : StaticData) (id : Nat) :
    table.data[id]? = (table.texts[id]?).map (⟨id, .string, ·⟩) := List.getElem?_mapIdx

theorem data_texts (table : StaticData) : table.data.map Datum.text = table.texts := by
  refine List.ext_getElem? fun id => ?_
  rw [List.getElem?_map, getElem?_data, Option.map_map]
  exact Option.map_id'

theorem data_of_texts {earlier later : StaticData} (h : earlier.texts <+: later.texts) :
    earlier.data <+: later.data := by
  obtain ⟨rest, h⟩ := h
  rw [data, data, ← h, List.mapIdx_append]
  exact List.prefix_append _ _

end StaticData

/-! ## Tables with an index -/

namespace IndexedData

def internEach (table : IndexedData) : List String → Option (List Label × IndexedData)
  | [] => some ([], table)
  | text :: texts => do
    let (label, table) ← table.intern text
    let (labels, table) ← table.internEach texts
    return (label :: labels, table)

theorem internEach_append (table : IndexedData) (texts more : List String) :
    table.internEach (texts ++ more) = (table.internEach texts).bind fun (labels, table) =>
      (table.internEach more).map fun (labels', table) => (labels ++ labels', table) := by
  induction texts generalizing table with
  | nil => simp [internEach]
  | cons text texts ih =>
    cases hfirst : table.intern text with
    | none => simp [internEach, hfirst]
    | some out => simp [internEach, hfirst, ih, Option.bind_assoc, Option.map_eq_bind]

/-- The data are those of the other table, and the index is their inverse. -/
structure Represents (indexed : IndexedData) (table : StaticData) : Prop where
  data : indexed.data.toList = table.data
  byText : ∀ (text : String) (id : Nat), indexed.byText[text]? = some id ↔ table.texts[id]? = some text

theorem represents_empty : Represents {} {} := ⟨rfl, fun text id => by simp⟩

namespace Represents

variable {indexed : IndexedData} {table : StaticData}

theorem getElem? (h : Represents indexed table) (id : Nat) :
    indexed.data[id]? = (table.texts[id]?).map (⟨id, .string, ·⟩) := by
  rw [← Array.getElem?_toList, h.data, StaticData.getElem?_data]

theorem datum (h : Represents indexed table) {id : Nat} (hid : id < indexed.data.size) :
    ∃ text, table.texts[id]? = some text ∧ indexed.data[id] = ⟨id, .string, text⟩ := by
  have hget := h.getElem? id
  rw [Array.getElem?_eq_getElem hid] at hget
  obtain ⟨text, htext, heq⟩ := Option.map_eq_some_iff.mp hget.symm
  exact ⟨text, htext, heq.symm⟩

theorem size (h : Represents indexed table) : indexed.data.size = table.texts.length := by
  rw [← Array.length_toList, h.data, StaticData.data, List.length_mapIdx]

theorem lookup (h : Represents indexed table) (text : String) :
    indexed.byText[text]? = table.texts.idxOf? text := by
  cases hfound : table.texts.idxOf? text with
  | some id =>
    obtain ⟨hlt, heq, -⟩ := List.idxOf?_eq_some_iff.mp hfound
    exact (h.byText text id).mpr (List.getElem?_eq_some_iff.mpr ⟨hlt, heq⟩)
  | none =>
    refine Option.eq_none_iff_forall_ne_some.mpr fun id hid => ?_
    exact List.idxOf?_eq_none_iff.mp hfound (List.mem_of_getElem? ((h.byText text id).mp hid))

/-- A call succeeds, returns the same label and leaves the index inverse to the data. -/
theorem intern (h : Represents indexed table) (text : String) :
    ∃ next, indexed.intern text = some ((table.intern text).1, next) ∧
      Represents next (table.intern text).2 := by
  rw [IndexedData.intern, h.lookup, StaticData.intern]
  cases hfound : table.texts.idxOf? text with
  | some id =>
    obtain ⟨hlt, heq, -⟩ := List.idxOf?_eq_some_iff.mp hfound
    have hid : table.texts[id]? = some text := List.getElem?_eq_some_iff.mpr ⟨hlt, heq⟩
    have hdatum := h.getElem? id
    rw [hid, Option.map_some] at hdatum
    exact ⟨indexed, by simp only [hdatum, Option.map_some]; rfl, h⟩
  | none =>
    have hnew := List.idxOf?_eq_none_iff.mp hfound
    refine ⟨_, by rw [h.size]; rfl, ?_, fun other id => ?_⟩
    · simp only [Array.toList_push, h.data, StaticData.data, List.mapIdx_concat]
    · have hold := h.byText other id
      simp only [Std.HashMap.getElem?_insert, beq_iff_eq]
      grind

theorem internEach (h : Represents indexed table) (texts : List String) :
    ∃ next, indexed.internEach texts = some ((table.internEach texts).1, next) ∧
      Represents next (table.internEach texts).2 := by
  induction texts generalizing indexed table with
  | nil => exact ⟨indexed, rfl, h⟩
  | cons text texts ih =>
    obtain ⟨mid, hmid, hmid'⟩ := h.intern text
    obtain ⟨next, hnext, hnext'⟩ := ih hmid'
    refine ⟨next, ?_, hnext'⟩
    rw [IndexedData.internEach, hmid]
    simp only [Option.bind_eq_bind, Option.bind_some, hnext]
    rfl

end Represents

/-! ## Any calls on a new table -/

/-- What calls with the texts in turn return and leave. -/
structure Interns (texts : List String) (labels : List Label) (table : IndexedData) : Prop where
  same : StaticData.internEach {} texts = (labels, StaticData.internAll texts)
  represents : Represents table (StaticData.internAll texts)
  length : labels.length = texts.length
  /-- Labels are told apart by how they are written. -/
  label_iff : ∀ call ∈ texts.zip labels, ∀ other ∈ texts.zip labels,
    call.2.text = other.2.text ↔ call.1 = other.1
  id : ∀ id (h : id < table.data.size), table.data[id].id = id
  ordered : table.data.toList.Pairwise fun a b => texts.idxOf a.text < texts.idxOf b.text
  /-- The entry was added by the first call with its text, when the ids below its own were taken. -/
  created : ∀ id (h : id < table.data.size), ∃ earlier later,
    texts = earlier ++ table.data[id].text :: later ∧ table.data[id].text ∉ earlier ∧
      (StaticData.internAll earlier).size = id
  count : table.data.size = texts.toFinset.card
  /-- The index is the inverse of the data. -/
  lookup : ∀ (text : String) (id : Nat), table.byText[text]? = some id ↔
    ∃ h : id < table.data.size, table.data[id].text = text

theorem interns_of_represents {texts : List String} {table : IndexedData}
    (h : Represents table (StaticData.internAll texts)) :
    Interns texts (StaticData.internEach {} texts).1 table := by
  have htable : (StaticData.internEach {} texts).2 = StaticData.internAll texts :=
    StaticData.internEach_table {} texts
  have hlabels := StaticData.internEach_labels {} texts
  rw [htable] at hlabels
  refine ⟨Prod.ext rfl htable, h, by rw [hlabels, List.length_map], fun call hcall other hother => ?_,
    fun id hid => ?_, ?_, fun id hid => ?_, ?_, fun text id => ?_⟩
  · rw [hlabels, ← List.map_prod_left_eq_zip, List.mem_map] at hcall hother
    obtain ⟨text, htext, rfl⟩ := hcall
    obtain ⟨text', -, rfl⟩ := hother
    have hinj := List.idxOf_inj (y := text') (StaticData.mem_internAll.mpr htext)
    exact (Label.text_datum_inj .string).trans hinj
  · obtain ⟨text, -, heq⟩ := h.datum hid
    rw [heq]
  · have hordered := StaticData.internAll_ordered texts
    rwa [← StaticData.data_texts, ← h.data, List.pairwise_map] at hordered
  · obtain ⟨text, htext, heq⟩ := h.datum hid
    rw [heq]
    exact StaticData.internAll_created htext
  · exact h.size.trans (StaticData.size_internAll texts)
  · rw [h.byText]
    constructor
    · intro htext
      have hid : id < table.data.size := by
        rw [h.size]
        exact (List.getElem?_eq_some_iff.mp htext).1
      obtain ⟨text', htext', heq⟩ := h.datum hid
      exact ⟨hid, by rw [heq]; exact Option.some.inj (htext'.symm.trans htext)⟩
    · rintro ⟨hid, rfl⟩
      obtain ⟨text, htext, heq⟩ := h.datum hid
      rw [htext, heq]

/-- Whatever texts a new table interns in turn, no call looks outside the data. Two calls return the same
label exactly when their texts are the same, and no label or entry changes with later calls. The entries
are numbered in the order in which their texts first occur, one for each text. -/
theorem interning_injective_stable (texts : List String) :
    ∃ labels table, internEach {} texts = some (labels, table) ∧ Interns texts labels table ∧
      ∀ more, ∃ labels' table', internEach {} (texts ++ more) = some (labels ++ labels', table') ∧
        table.data.toList <+: table'.data.toList := by
  obtain ⟨table, hrun, htable⟩ := represents_empty.internEach texts
  have hinterns := interns_of_represents (StaticData.internEach_table {} texts ▸ htable)
  refine ⟨_, table, hrun, hinterns, fun more => ?_⟩
  obtain ⟨table', hmore, htable'⟩ := htable.internEach more
  refine ⟨_, table', by rw [internEach_append, hrun]; simp only [Option.bind_some, hmore]; rfl, ?_⟩
  rw [htable.data, htable'.data]
  exact StaticData.data_of_texts (StaticData.texts_internEach _ more)

end IndexedData

end ArmBackend

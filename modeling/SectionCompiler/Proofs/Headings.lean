import SectionCompiler.Proofs.Answers
import SectionCompiler.Proofs.Folding
import SectionCompiler.Yaml.Document

/-! The sections of a YAML mapping. Its entries become sections one by one, with the texts of their
keys as headings. Keys of different types may have one text, and then the document has one section
for them, the last. So a document has all the sections of its mapping exactly when no two keys have
the same text. -/

namespace SectionCompiler.Yaml

inductive HasText : Value → String → Prop where
  | null : HasText .null ""
  | true : HasText (.bool true) "true"
  | false : HasText (.bool false) "false"
  | number (n : Number) : HasText (.number n) n.write
  | string (text : String) : HasText (.string text) text

/-- What stands under a key: the text of a scalar, or the texts of a sequence of scalars. -/
inductive HasContent : Value → SectionCompiler.Value → Prop where
  | scalar {v : Value} {text : String} : HasText v text → HasContent v (.scalar text)
  | list {items : List Value} {texts : List String} :
      List.Forall₂ HasText items texts → HasContent (.sequence items) (.list texts)

/-- The section of a body: without entries for null, and else one entry after another. -/
inductive HasSection : Value → Section → Prop where
  | null : HasSection .null ∅
  | mapping {entries : List (Value × Value)} {rows : List Entry} :
      List.Forall₂ (fun e row => HasText e.1 row.1 ∧ HasContent e.2 row.2) entries rows →
      HasSection (.mapping entries) ⟨rows⟩

/-- The section of an entry of a document, under the text of its key. -/
def IsHeaded (e : Value × Value) (s : String × Section) : Prop :=
  HasText e.1 s.1 ∧ HasSection e.2 s.2

theorem scalarText?_eq_some_iff {v : Value} {text : String} :
    scalarText? v = some text ↔ HasText v text := by
  constructor
  · intro h
    unfold scalarText? at h
    split at h
    · exact Option.some.inj h ▸ .null
    · exact Option.some.inj h ▸ .true
    · exact Option.some.inj h ▸ .false
    · exact Option.some.inj h ▸ .number _
    · exact Option.some.inj h ▸ .string _
    · cases h
  · intro h
    cases h <;> rfl

theorem entryValue?_eq_some_iff {v : Value} {content : SectionCompiler.Value} :
    entryValue? v = some content ↔ HasContent v content := by
  constructor
  · intro h
    unfold entryValue? at h
    split at h
    · obtain ⟨texts, htexts, rfl⟩ := Option.map_eq_some_iff.1 h
      exact .list ((mapM_eq_some.1 htexts).imp fun _ _ => scalarText?_eq_some_iff.1)
    · obtain ⟨text, htext, rfl⟩ := Option.map_eq_some_iff.1 h
      exact .scalar (scalarText?_eq_some_iff.1 htext)
  · intro h
    cases h with
    | scalar htext =>
      have hscalar := scalarText?_eq_some_iff.2 htext
      cases htext <;> exact Option.map_eq_some_iff.2 ⟨_, hscalar, rfl⟩
    | list htexts =>
      have hitems := mapM_eq_some.2 (htexts.imp fun _ _ => scalarText?_eq_some_iff.2)
      exact Option.map_eq_some_iff.2 ⟨_, hitems, rfl⟩

theorem entryOf_eq_ok_iff {heading : String} {e : Value × Value} {row : Entry} :
    entryOf heading e = .ok row ↔ HasText e.1 row.1 ∧ HasContent e.2 row.2 := by
  rw [← scalarText?_eq_some_iff, ← entryValue?_eq_some_iff, entryOf]
  cases hkey : scalarText? e.1 with
  | none => simp
  | some key => cases hvalue : entryValue? e.2 <;> simp [Prod.ext_iff]

theorem sectionOf_eq_ok_iff {heading : String} {v : Value} {content : Section} :
    sectionOf heading v = .ok content ↔ HasSection v content := by
  constructor
  · intro h
    unfold sectionOf at h
    split at h
    · exact Except.ok.inj h ▸ .null
    · obtain ⟨rows, hrows, rfl⟩ := map_eq_ok.1 h
      exact .mapping ((mapM_eq_ok.1 hrows).imp fun _ _ => entryOf_eq_ok_iff.1)
    · cases h
  · intro h
    cases h with
    | null => rfl
    | mapping hrows =>
      exact map_eq_ok.2 ⟨_, mapM_eq_ok.2 (hrows.imp fun _ _ => entryOf_eq_ok_iff.2), rfl⟩

theorem headedSection_eq_ok_iff {e : Value × Value} {s : String × Section} :
    headedSection e = .ok s ↔ IsHeaded e s := by
  rw [IsHeaded, ← scalarText?_eq_some_iff, headedSection]
  cases hkey : scalarText? e.1 with
  | none => simp
  | some heading =>
    rw [← @sectionOf_eq_ok_iff heading]
    simp [map_eq_ok, Prod.ext_iff, and_comm]

def sections (text : String) : Except Unreadable (List (String × Section)) :=
  match value? text with
  | none => .error .malformed
  | some .null => .ok []
  | some (.mapping entries) => entries.mapM headedSection
  | some _ => .error .notMapping

theorem document_eq_map (text : String) : document text = (sections text).map Keyed.ofList := by
  rw [document, sections]
  cases value? text with
  | none => rfl
  | some v => cases v <;> rfl

theorem sections_of_mapping {text : String} {entries : List (Value × Value)}
    {ss : List (String × Section)} (h : value? text = some (.mapping entries)) :
    sections text = .ok ss ↔ List.Forall₂ IsHeaded entries ss := by
  simp only [sections, h, mapM_eq_ok, headedSection_eq_ok_iff]

theorem exists_mapping {text : String} {ss : List (String × Section)}
    (h : sections text = .ok ss) (hne : ss ≠ []) :
    ∃ entries, value? text = some (.mapping entries) := by
  rw [sections] at h
  split at h
  · cases h
  · exact absurd (Except.ok.inj h).symm hne
  · next entries hv => exact ⟨entries, hv⟩
  · cases h

/-- Of the sections with a heading the last one has a content. -/
def IsLast (ss : List (String × Section)) (heading : String) (content : Section) : Prop :=
  ∃ before after, ss = before ++ (heading, content) :: after ∧ heading ∉ after.map Prod.fst

/-- The document has a section under the same heading in which all entries of a section stand in
their order. -/
def Keeps (d : Document) (s : String × Section) : Prop :=
  ∃ content, d.get? s.1 = some content ∧ s.2.entries.Sublist content.entries

/-- What a document has of the sections of a mapping. Each heading stands where it came first and
has its last section. The document has all sections, in their order and nothing else, just when no
two of them have one heading. Otherwise an earlier section is dropped unless the last one has all
its entries. -/
structure Leaves (ss : List (String × Section)) (d : Document) : Prop where
  keys_eq : d.keys = (ss.map Prod.fst).eraseDups
  get?_eq_some_iff : ∀ heading content, d.get? heading = some content ↔ IsLast ss heading content
  entries_eq_iff : d.entries = ss ↔ (ss.map Prod.fst).Nodup
  keeps_iff : ∀ s ∈ ss, Keeps d s ↔
    ∀ content, IsLast ss s.1 content → s.2.entries.Sublist content.entries

variable {ss : List (String × Section)}

theorem get?_ofList_eq_some_iff {heading : String} {content : Section} :
    (Keyed.ofList ss).get? heading = some content ↔ IsLast ss heading content := by
  constructor
  · intro h
    rw [Keyed.get?_ofList] at h
    obtain ⟨after, before, hsplit, hafter⟩ := List.lookup_eq_some_iff.1 h
    refine ⟨before.reverse, after.reverse, ?_, ?_⟩
    · rw [← List.reverse_reverse ss, hsplit]
      simp
    · rw [List.map_reverse, List.mem_reverse]
      intro hmem
      obtain ⟨s, hs, hheading⟩ := List.mem_map.1 hmem
      exact bne_iff_ne.1 (hafter s hs) hheading.symm
  · rintro ⟨before, after, rfl, hlast⟩
    exact Keyed.get?_ofList_of_last hlast

theorem leaves_ofList (ss : List (String × Section)) : Leaves ss (Keyed.ofList ss) where
  keys_eq := Keyed.keys_ofList ss
  get?_eq_some_iff _ _ := get?_ofList_eq_some_iff
  entries_eq_iff := Keyed.entries_ofList_eq_iff
  keeps_iff := by
    intro s hs
    have hkey : s.1 ∈ (Keyed.ofList ss).keys := by
      rw [Keyed.keys_ofList, List.mem_eraseDups]
      exact List.mem_map_of_mem hs
    obtain ⟨kept, hkept⟩ := Keyed.mem_keys_iff.1 hkey
    constructor
    · rintro ⟨content, hcontent, hsub⟩ content' hlast
      obtain rfl := Option.some.inj (hcontent.symm.trans (get?_ofList_eq_some_iff.2 hlast))
      exact hsub
    · intro h
      exact ⟨kept, hkept, h kept (get?_ofList_eq_some_iff.1 hkept)⟩

/-- Each entry of a mapping becomes a section under the text of its key, and of the sections with
one heading the document has the last. -/
theorem document_leaves_last {text : String} {entries : List (Value × Value)} {d : Document}
    (hvalue : value? text = some (.mapping entries)) (h : document text = .ok d) :
    ∃ ss, List.Forall₂ IsHeaded entries ss ∧ Leaves ss d := by
  rw [document_eq_map] at h
  obtain ⟨ss, hss, rfl⟩ := map_eq_ok.1 h
  exact ⟨ss, (sections_of_mapping hvalue).1 hss, leaves_ofList ss⟩

/-- Headings that are a text, a truth value and null, with a list and a fraction among the values,
and a heading that is written in two ways. -/
def crew : String :=
  "Tank:\n  Armor: 50\n  Voices: [a, ~, 0x1F]\n  Load: 1.50\n" ++
    "true:\n~:\n  Blank:\n\"true\":\n  K: v\n"

def crewSections : List (String × Section) :=
  [("Tank", ⟨[("Armor", .scalar "50"), ("Voices", .list ["a", "", "31"]),
      ("Load", .scalar "1.5")]⟩),
    ("true", ∅), ("", ⟨[("Blank", .scalar "")]⟩), ("true", ⟨[("K", .scalar "v")]⟩)]

theorem sections_crew : sections crew = .ok crewSections := by decide +kernel

theorem document_leaves_last_crew :
    ∃ entries, value? crew = some (.mapping entries) ∧
      document crew = .ok (Keyed.ofList crewSections) ∧
      ∃ ss, List.Forall₂ IsHeaded entries ss ∧ Leaves ss (Keyed.ofList crewSections) := by
  obtain ⟨entries, hvalue⟩ := exists_mapping sections_crew (by decide)
  have hdocument : document crew = .ok (Keyed.ofList crewSections) := by
    rw [document_eq_map, sections_crew]
    rfl
  exact ⟨entries, hvalue, hdocument, document_leaves_last hvalue hdocument⟩

def twins : String := "1:\n  a: x\n\"1\":\n  b: y\n"

theorem sections_twins :
    sections twins = .ok [("1", ⟨[("a", .scalar "x")]⟩), ("1", ⟨[("b", .scalar "y")]⟩)] := by
  decide +kernel

/-- Of two keys with one text only the section of the later one is left. -/
theorem earlier_section_dropped :
    ∃ entries ss d, value? twins = some (.mapping entries) ∧ document twins = .ok d ∧
      List.Forall₂ IsHeaded entries ss ∧ ¬ ∀ s ∈ ss, Keeps d s := by
  obtain ⟨entries, hvalue⟩ := exists_mapping sections_twins (by decide)
  refine ⟨entries, _, Keyed.ofList [("1", ⟨[("b", .scalar "y")]⟩)], hvalue, ?_,
    (sections_of_mapping hvalue).1 sections_twins, ?_⟩
  · rw [document_eq_map, sections_twins]
    rfl
  · intro h
    obtain ⟨content, hcontent, hsub⟩ := h _ List.mem_cons_self
    obtain rfl := Option.some.inj hcontent
    exact absurd hsub (by decide)

end SectionCompiler.Yaml

import SectionCompiler.Ini.Reader
import SectionCompiler.Proofs.Written

/-! The written text line by line. Reading goes over a text row by row and passes over the empty
lines, so that what is read of documents are the rows of their sections, one section after
another. -/

namespace SectionCompiler.Ini

open Text

def Reading.read (r : Reading) (cs : List Char) : Reading :=
  ((lines cs).map Line.ofChars).foldl Reading.step r

/-- The rows of an entry: a list takes one for each item. -/
def entryRows : Entry → List (List Char)
  | (key, .scalar text) => [scalarRow key text]
  | (key, .list items) => items.map (itemRow key)

def sectionRows (heading : String) (content : Section) : List (List Char) :=
  headerRow heading :: content.entries.flatMap entryRows

def contents (documents : List (String × Document)) : List (String × Section) :=
  documents.flatMap fun d => d.2.entries

def sectionReading (e : String × Section) : List Line := (sectionRows e.1 e.2).map Line.ofChars

theorem isLine_append_cons {before after : List Char} {c : Char} (hb : IsLine before)
    (hc : c ≠ '\n' ∧ c ≠ '\r') (ha : IsLine after) : IsLine (before ++ c :: after) := by
  constructor
  · simp [hb.1, ha.1, Ne.symm hc.1]
  · simp [hb.2, ha.2, Ne.symm hc.2]

theorem isLine_nil : IsLine [] := ⟨List.not_mem_nil, List.not_mem_nil⟩

theorem isLine_headerRow (heading : String) : IsLine (headerRow heading) :=
  isLine_append_cons isLine_nil (by decide) <|
    isLine_append_cons (isLine_written _) (by decide) isLine_nil

theorem isLine_of_mem_entryRows {e : Entry} {row : List Char} (h : row ∈ entryRows e) :
    IsLine row := by
  rcases e with ⟨key, text | items⟩
  · obtain rfl := List.mem_singleton.1 h
    exact isLine_append_cons (isLine_written _) (by decide) (isLine_written _)
  · obtain ⟨item, -, rfl⟩ := List.mem_map.1 h
    exact isLine_append_cons (isLine_written _) (by decide) <|
      isLine_append_cons isLine_nil (by decide) <|
        isLine_append_cons isLine_nil (by decide) (isLine_written _)

theorem isLine_of_mem_sectionRows {heading : String} {content : Section} {row : List Char}
    (h : row ∈ sectionRows heading content) : IsLine row := by
  rcases List.mem_cons.1 h with rfl | h
  · exact isLine_headerRow heading
  · obtain ⟨e, -, hrow⟩ := List.mem_flatMap.1 h
    exact isLine_of_mem_entryRows hrow

theorem entryLines_eq (e : Entry) : entryLines e = (entryRows e).flatMap (· ++ ['\n']) := by
  rcases e with ⟨key, text | items⟩
  · simp [entryLines, entryRows, scalarLine, scalarRow]
  · rw [entryLines, entryRows, List.flatMap_map]
    refine congrArg (List.flatMap · items) (funext fun item => ?_)
    simp [itemLine, itemRow]

theorem sectionLines_eq (heading : String) (content : Section) :
    sectionLines heading content = (sectionRows heading content).flatMap (· ++ ['\n']) := by
  rw [sectionLines, sectionRows, List.flatMap_cons, List.flatMap_assoc]
  congr 1
  · simp [headerLine, headerRow]
  · exact congrArg (List.flatMap · content.entries) (funext entryLines_eq)

namespace Reading

theorem read_row (r : Reading) {row : List Char} (rest : List Char) (h : IsLine row) :
    r.read (row ++ '\n' :: rest) = (r.step (Line.ofChars row)).read rest := by
  rw [read, lines_append rest h]
  rfl

theorem read_newline (r : Reading) (rest : List Char) : r.read ('\n' :: rest) = r.read rest :=
  r.read_row rest isLine_nil

theorem read_rows (r : Reading) {rows : List (List Char)} (rest : List Char)
    (h : ∀ row ∈ rows, IsLine row) :
    r.read (rows.flatMap (· ++ ['\n']) ++ rest) =
      ((rows.map Line.ofChars).foldl step r).read rest := by
  induction rows generalizing r with
  | nil => rfl
  | cons row rows ih =>
    obtain ⟨hrow, hrows⟩ := List.forall_mem_cons.1 h
    rw [List.flatMap_cons, List.append_assoc, List.append_assoc, List.singleton_append,
      read_row r _ hrow, ih _ hrows]
    rfl

theorem read_sectionLines (r : Reading) (e : String × Section) (rest : List Char) :
    r.read (sectionLines e.1 e.2 ++ rest) = ((sectionReading e).foldl step r).read rest := by
  rw [sectionLines_eq, read_rows r rest fun _ => isLine_of_mem_sectionRows]
  rfl

theorem read_documentLines (r : Reading) (document : Document) (rest : List Char) :
    r.read (documentLines document ++ rest) =
      ((document.entries.flatMap sectionReading).foldl step r).read rest := by
  have hlines : documentLines document =
      ['\n'].intercalate (document.entries.map fun e => sectionLines e.1 e.2) := rfl
  rw [hlines]
  induction document.entries generalizing r with
  | nil => rfl
  | cons e others ih =>
    cases others with
    | nil =>
      rw [List.map_singleton, List.intercalate_singleton, List.flatMap_singleton,
        read_sectionLines]
    | cons e' others =>
      have hcons := ih ((sectionReading e).foldl step r)
      rw [List.map_cons] at hcons
      rw [List.map_cons, List.map_cons, List.intercalate_cons_cons, List.append_assoc,
        List.append_assoc, List.singleton_append, read_sectionLines, read_newline, hcons,
        ← List.foldl_append, ← List.flatMap_cons]

theorem read_renderChars (r : Reading) (documents : List (String × Document)) :
    r.read (renderChars documents true) =
      ((contents documents).flatMap sectionReading).foldl step r := by
  induction documents generalizing r with
  | nil => rfl
  | cons d rest ih =>
    have hcons : renderChars (d :: rest) true =
        documentLines d.2 ++ '\n' :: renderChars rest true := by
      simp [renderChars]
    rw [hcons, read_documentLines, read_newline, ih, ← List.foldl_append, ← List.flatMap_append]
    rfl

end Reading

/-- What is read of written documents are their sections, one after another. -/
theorem parse_render (documents : List (String × Document)) :
    parse (render documents true) =
      parseLines ((contents documents).flatMap sectionReading) := by
  have h := Reading.start.read_renderChars documents
  rw [Reading.read] at h
  rw [parse, parseLines, parseLines, render, String.toList_ofList, h]

end SectionCompiler.Ini

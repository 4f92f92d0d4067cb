import SectionCompiler.Proofs.Answers
import SectionCompiler.Proofs.Sweeping

/-! What a scan of a body gathers. Without inverted ranges it has the spans of all placeholders in
reading order, the greatest of their ends, and whether a range is open. With one it ends at the
first, whatever it has gathered till then. -/

namespace SectionCompiler.Arity

open Placeholder

def isInverted (r : Range) : Bool :=
  match r.last with
  | some last => last < r.first
  | none => false

def firstInverted? (body : Section) : Option Range :=
  (texts body).findSome? fun text => (ranges text).find? isInverted

structure Coverage where
  spans : List Span
  isOpen : Bool

def coverageOf (text : String) : Coverage where
  spans := (singles text).map (fun i => ⟨i, i⟩) ++
    (ranges text).filterMap fun r => r.last.map fun last => ⟨r.first, last⟩
  isOpen := (ranges text).any (·.last.isNone)

def coverage (body : Section) : Coverage where
  spans := (texts body).flatMap fun text => (coverageOf text).spans
  isOpen := (texts body).any fun text => (coverageOf text).isOpen

/-- The number of arguments that spans without a gap speak of. -/
def span (spans : List Span) : Nat := (spans.map Span.last).max?.elim 0 next

/-! ### Faults of a scan -/

def defect? (r : Range) : Option Defect :=
  if isInverted r then some (.inverted (String.ofList r.text)) else none

/-- Takes in a range that is not inverted. -/
def Scan.widen (scan : Scan) (r : Range) : Scan :=
  match r.last with
  | none => { scan with isOpen := true }
  | some last => scan.cover ⟨r.first, last⟩

/-- Takes in a text without inverted ranges. -/
def Scan.read (scan : Scan) (text : String) : Scan :=
  (ranges text).foldl Scan.widen ((singles text).foldl (fun scan i => scan.cover ⟨i, i⟩) scan)

theorem Scan.takeRange_eq (scan : Scan) (r : Range) :
    scan.takeRange r = (defect? r).elim (.ok (scan.widen r)) .error := by
  obtain ⟨text, first, last⟩ := r
  cases last with
  | none => rfl
  | some last =>
    by_cases hlt : last < first
    · simp [takeRange, defect?, isInverted, hlt]
    · simp [takeRange, defect?, isInverted, hlt, widen]

theorem Scan.visit_eq (scan : Scan) (text : String) :
    scan.visit text = ((ranges text).findSome? defect?).elim (.ok (scan.read text)) .error :=
  foldlM_eq_elim takeRange_eq _ _

theorem findSome?_defect? (rs : List Range) :
    rs.findSome? defect? = (rs.find? isInverted).map fun r => .inverted (String.ofList r.text) := by
  rw [← List.findSome?_guard, List.map_findSome?]
  refine congrArg (List.findSome? · rs) (funext fun r => ?_)
  by_cases h : isInverted r = true <;> simp [defect?, h]

theorem foldlM_visit (body : Section) : (texts body).foldlM Scan.visit .empty =
    (firstInverted? body).elim (.ok ((texts body).foldl Scan.read .empty))
      fun r => .error (.inverted (String.ofList r.text)) := by
  have hfault : (texts body).findSome? (fun text => (ranges text).findSome? defect?) =
      (firstInverted? body).map fun r => .inverted (String.ofList r.text) := by
    simp only [findSome?_defect?, firstInverted?, List.map_findSome?, Function.comp_def]
  rw [foldlM_eq_elim Scan.visit_eq, hfault]
  cases firstInverted? body <;> rfl

/-! ### The gathered coverage -/

theorem max?_concat (ns : List Nat) (n : Nat) :
    (ns ++ [n]).max? = some (ns.max?.elim n (max · n)) := by
  cases ns with
  | nil => rfl
  | cons m rest => exact congrArg some List.foldl_append

namespace Coverage

/-- The scan that has gathered a coverage. -/
def scan (c : Coverage) : Scan := ⟨c.spans, (c.spans.map Span.last).max?, c.isOpen⟩

def ofSingle (i : Nat) : Coverage := ⟨[⟨i, i⟩], false⟩

def ofRange (r : Range) : Coverage :=
  ⟨(r.last.map fun last => ⟨r.first, last⟩).toList, r.last.isNone⟩

/-- Where each step adds to the coverage of a scan, all together add what each of them adds. -/
theorem foldl_scan {α : Type} {step : Scan → α → Scan} {g : α → Coverage}
    (h : ∀ (c : Coverage) (a : α),
      step c.scan a = scan ⟨c.spans ++ (g a).spans, c.isOpen || (g a).isOpen⟩)
    (c : Coverage) (as : List α) : as.foldl step c.scan =
      scan ⟨c.spans ++ as.flatMap fun a => (g a).spans,
        c.isOpen || as.any fun a => (g a).isOpen⟩ := by
  induction as generalizing c with
  | nil => simp
  | cons a rest ih =>
    rw [List.foldl_cons, h, ih, List.flatMap_cons, List.any_cons, List.append_assoc,
      Bool.or_assoc]

theorem scan_cover (c : Coverage) (s : Span) :
    c.scan.cover s = scan ⟨c.spans ++ [s], c.isOpen⟩ := by
  simp only [scan, Scan.cover, List.map_append, List.map_singleton, max?_concat]

theorem scan_single (c : Coverage) (i : Nat) : c.scan.cover ⟨i, i⟩ =
    scan ⟨c.spans ++ (ofSingle i).spans, c.isOpen || (ofSingle i).isOpen⟩ := by
  rw [scan_cover, ofSingle, Bool.or_false]

theorem scan_widen (c : Coverage) (r : Range) : c.scan.widen r =
    scan ⟨c.spans ++ (ofRange r).spans, c.isOpen || (ofRange r).isOpen⟩ := by
  obtain ⟨text, first, last⟩ := r
  cases last with
  | none => simp [Scan.widen, ofRange, scan]
  | some last => simp [Scan.widen, ofRange, scan_cover]

theorem scan_read (c : Coverage) (text : String) : c.scan.read text =
    scan ⟨c.spans ++ (coverageOf text).spans, c.isOpen || (coverageOf text).isOpen⟩ := by
  have hclosed : (singles text).any (fun i => (ofSingle i).isOpen) = false :=
    List.any_eq_false.2 fun _ _ => Bool.false_ne_true
  rw [Scan.read, foldl_scan scan_single, foldl_scan scan_widen, hclosed]
  simp [ofSingle, ofRange, coverageOf, List.filterMap_eq_flatMap_toList, List.map_eq_flatMap]

theorem foldl_read (body : Section) :
    (texts body).foldl Scan.read .empty = (coverage body).scan :=
  foldl_scan scan_read ⟨[], false⟩ (texts body)

/-- The end of a scan, with the search for a gap in the place of the sweep. -/
theorem finish_scan {c : Coverage} (h : ∀ s ∈ c.spans, s.IsProper) : c.scan.finish =
    if c.spans.any fun s => gapFrom c.spans 0 < s.last then .error (.missing (gapFrom c.spans 0))
    else if c.isOpen then .ok .unbounded
    else .ok (.finite (span c.spans)) := by
  obtain ⟨spans, isOpen⟩ := c
  obtain ⟨reached, hsweep⟩ := foldlM_sweep_eq h
  simp only [Scan.finish, scan, hsweep]
  split
  · rfl
  · cases isOpen <;> rfl

end Coverage

theorem ofBody_eq_elim (body : Section) : ofBody body =
    (firstInverted? body).elim (coverage body).scan.finish
      fun r => .error (.inverted (String.ofList r.text)) := by
  rw [ofBody, foldlM_visit, Coverage.foldl_read]
  cases firstInverted? body <;> rfl

end SectionCompiler.Arity

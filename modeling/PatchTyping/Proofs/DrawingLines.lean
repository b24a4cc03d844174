import PatchTyping.DotDrawing
import PatchTyping.Proofs.OrderedMaps

/-!
# Drawings cannot be broken by names

A reader of drawings that knows only of line ends, literals and their three escapes finds in every
drawing the lines that were meant: on each of them the fixed text of the language and, where names and
labels belong, literals with exactly these names and labels. So no name ends its literal or its line,
whatever it contains.
-/

namespace PatchTyping.DotDrawing

/-- A piece of a line as it is read: a character of the language, or a literal with its escapes
undone. -/
inductive Segment where
  | bare (c : Char)
  | literal (text : String)
deriving DecidableEq, Repr

/-- Where a reader is: outside of literals, in a literal, or behind a backslash in a literal. The
characters of the literal are kept, latest first. -/
inductive ReaderState where
  | outside
  | inside (read : List Char)
  | escaped (read : List Char)

/-- Read the rest of a line. A literal that is not ended or holds an unknown escape is refused. -/
def readFrom : ReaderState → List Char → Option (List Segment)
  | .outside, [] => some []
  | .inside _, [] => none
  | .escaped _, [] => none
  | .outside, c :: cs =>
    if c = '"' then readFrom (.inside []) cs else (readFrom .outside cs).map (.bare c :: ·)
  | .inside read, c :: cs =>
    if c = '"' then
      (readFrom .outside cs).map (.literal (String.ofList read.reverse) :: ·)
    else if c = '\\' then readFrom (.escaped read) cs
    else readFrom (.inside (c :: read)) cs
  | .escaped read, c :: cs =>
    if c = '"' then readFrom (.inside ('"' :: read)) cs
    else if c = '\\' then readFrom (.inside ('\\' :: read)) cs
    else if c = 'n' then readFrom (.inside ('\n' :: read)) cs
    else none

def readLine (line : List Char) : Option (List Segment) := readFrom .outside line

/-! ## Literals -/

theorem readFrom_escapedChar (read : List Char) (c : Char) (rest : List Char) :
    readFrom (.inside read) (escapedChar c ++ rest) = readFrom (.inside (c :: read)) rest := by
  unfold escapedChar
  split
  · next h => simp [readFrom, h]
  · next hquote =>
    split
    · next h => simp [readFrom, h]
    · next hslash =>
      split
      · next h => simp [readFrom, h]
      · simp [readFrom, hquote, hslash]

theorem readFrom_escaped (cs read rest : List Char) :
    readFrom (.inside read) (cs.flatMap escapedChar ++ '"' :: rest) =
      (readFrom .outside rest).map (.literal (String.ofList (read.reverse ++ cs)) :: ·) := by
  induction cs generalizing read with
  | nil => simp [readFrom]
  | cons c cs ih =>
    rw [List.flatMap_cons, List.append_assoc, readFrom_escapedChar, ih]
    simp

/-- A literal is read up to its own end, and as the text it stands for. -/
theorem readFrom_quoted (s : String) (rest : List Char) :
    readFrom .outside ((quoted s).toList ++ rest) =
      (readFrom .outside rest).map (.literal s :: ·) := by
  simp [quoted, readFrom, readFrom_escaped]

theorem newline_not_mem_escapedChar (c : Char) : '\n' ∉ escapedChar c := by
  unfold escapedChar
  split
  · simp
  · split
    · simp
    · split
      · simp
      · next h => simpa using Ne.symm h

theorem newline_not_mem_quoted (s : String) : '\n' ∉ (quoted s).toList := by
  simp [quoted, newline_not_mem_escapedChar]

/-! ## Lines of fixed text and literals -/

namespace Segment

/-- How a piece is written. -/
def written : Segment → List Char
  | bare c => [c]
  | literal text => (quoted text).toList

/-- A character of the language neither begins a literal nor ends the line. -/
def Fixed : Segment → Prop
  | bare c => c ≠ '"' ∧ c ≠ '\n'
  | literal _ => True

instance : DecidablePred Fixed
  | bare _ => inferInstanceAs (Decidable (_ ∧ _))
  | literal _ => inferInstanceAs (Decidable True)

end Segment

open Segment (written Fixed)

/-- A text of the language. -/
def plain (s : String) : List Segment := s.toList.map .bare

@[simp] theorem written_plain (s : String) : (plain s).flatMap written = s.toList := by
  simp [plain, List.flatMap_map, written]

@[simp] theorem written_literal (s : String) :
    [Segment.literal s].flatMap written = (quoted s).toList := by
  simp [written]

theorem readFrom_written {x : Segment} (h : x.Fixed) (rest : List Char) :
    readFrom .outside (x.written ++ rest) = (readFrom .outside rest).map (x :: ·) := by
  cases x with
  | bare c => simp [written, readFrom, h.1]
  | literal text => exact readFrom_quoted text rest

theorem readLine_written {segments : List Segment} (h : ∀ x ∈ segments, x.Fixed) :
    readLine (segments.flatMap written) = some segments := by
  unfold readLine
  induction segments with
  | nil => rfl
  | cons x segments ih =>
    obtain ⟨hx, hrest⟩ := List.forall_mem_cons.mp h
    rw [List.flatMap_cons, readFrom_written hx, ih hrest]
    rfl

theorem newline_not_mem_written {segments : List Segment} (h : ∀ x ∈ segments, x.Fixed) :
    '\n' ∉ segments.flatMap written := by
  intro hmem
  obtain ⟨x, hx, hmem⟩ := List.mem_flatMap.mp hmem
  cases x with
  | bare c => exact (h _ hx).2 (List.mem_singleton.mp hmem).symm
  | literal text => exact newline_not_mem_quoted text hmem

/-! ## The lines of a drawing -/

def nodeColor (n : TypedNode) : String :=
  if n.provenance.isAuthored then if n.isConcrete then "lightblue" else "lightsalmon"
  else "lightyellow"

def nodeLabel (id : NodeId) (n : TypedNode) : String :=
  match n.provenance with
  | .inserted rule _ => rule ++ "\n" ++ id
  | .authored => id ++ "\n" ++ n.block

/-- What the line of a node says: its name, its style and its label. -/
def nodeSegments (id : NodeId) (n : TypedNode) : List Segment :=
  plain "    " ++ [.literal id] ++ plain " [" ++ plain "shape=box, style="
    ++ (if n.provenance.isAuthored then plain "filled" else [.literal "filled,dashed"])
    ++ plain ", fillcolor=" ++ plain (nodeColor n) ++ plain ", label=" ++ [.literal (nodeLabel id n)]
    ++ plain "];"

/-- What the line of an edge says: the names of the nodes at its ends, its label and its style. -/
def edgeSegments (cycleOf : Std.ExtTreeMap NodeId (Nat × CycleClass)) (e : TypedEdge) : List Segment :=
  plain "    " ++ [.literal e.source.node] ++ plain " -> " ++ [.literal e.target.node]
    ++ plain " [label=" ++ [.literal (edgeLabel e)] ++ plain (cycleAttributes cycleOf e)
    ++ plain (if e.carried.isNone then ", style=dashed" else "") ++ plain "];"

theorem nodeAttributes_eq (id : NodeId) (n : TypedNode) :
    nodeAttributes id n = "shape=box, style="
      ++ (if n.provenance.isAuthored then "filled" else quoted "filled,dashed")
      ++ ", fillcolor=" ++ nodeColor n ++ ", label=" ++ quoted (nodeLabel id n) := by
  unfold nodeAttributes nodeColor nodeLabel
  cases n.provenance with
  | authored => rfl
  | inserted rule edge => rfl

theorem nodeLine_written (id : NodeId) (n : TypedNode) :
    (nodeLine id n).toList = (nodeSegments id n).flatMap written := by
  rw [nodeLine, nodeAttributes_eq, nodeSegments]
  cases n.provenance.isAuthored with
  | true =>
    simp only [if_true, String.toList_append, List.flatMap_append, written_plain, written_literal,
      List.append_assoc]
  | false =>
    simp only [Bool.false_eq_true, if_false, String.toList_append, List.flatMap_append, written_plain,
      written_literal, List.append_assoc]

theorem edgeLine_written (cycleOf : Std.ExtTreeMap NodeId (Nat × CycleClass)) (e : TypedEdge) :
    (edgeLine cycleOf e).toList = (edgeSegments cycleOf e).flatMap written := by
  simp only [edgeLine, edgeSegments, String.toList_append, List.flatMap_append, written_plain,
    written_literal, List.append_assoc]

theorem fixed_nodeSegments (id : NodeId) (n : TypedNode) : ∀ x ∈ nodeSegments id n, x.Fixed := by
  have hstyle : ∀ x ∈ (if n.provenance.isAuthored then plain "filled" else [.literal "filled,dashed"]),
      x.Fixed := by
    split
    · decide
    · decide
  have hcolor : ∀ x ∈ plain (nodeColor n), x.Fixed := by
    unfold nodeColor
    split
    · split
      · decide
      · decide
    · decide
  simp only [nodeSegments, List.forall_mem_append, List.forall_mem_singleton, and_assoc]
  exact ⟨by decide, trivial, by decide, by decide, hstyle, by decide, hcolor, by decide, trivial,
    by decide⟩

theorem fixed_edgeSegments (cycleOf : Std.ExtTreeMap NodeId (Nat × CycleClass)) (e : TypedEdge) :
    ∀ x ∈ edgeSegments cycleOf e, x.Fixed := by
  have hcycle : ∀ x ∈ plain (cycleAttributes cycleOf e), x.Fixed := by
    unfold cycleAttributes
    split
    · split
      · split
        · decide
        · decide
      · decide
    · decide
  have hdashed : ∀ x ∈ plain (if e.carried.isNone then ", style=dashed" else ""), x.Fixed := by
    split
    · decide
    · decide
  simp only [edgeSegments, List.forall_mem_append, List.forall_mem_singleton, and_assoc]
  exact ⟨by decide, trivial, by decide, trivial, by decide, trivial, hcycle, hdashed, by decide⟩

theorem splitOn_lines {lines : List (List Char)} (h : ∀ line ∈ lines, '\n' ∉ line) :
    (lines.flatMap (· ++ ['\n'])).splitOn '\n' = lines ++ [[]] := by
  induction lines with
  | nil => simp
  | cons line lines ih =>
    obtain ⟨hline, hrest⟩ := List.forall_mem_cons.mp h
    rw [List.flatMap_cons, List.append_assoc, List.singleton_append,
      List.splitOn_append_cons_self_of_not_mem hline, ih hrest, List.cons_append]

theorem lines_eq (t : TypedPatch) (cycles : List CycleReport) :
    lines t cycles = header ++ t.nodes.toList.map (fun x => nodeLine x.1 x.2) ++ [""]
      ++ t.edges.toList.map (fun x => edgeLine (membership cycles) x.2) ++ ["\x7d"] := rfl

theorem newline_not_mem_lines (t : TypedPatch) (cycles : List CycleReport) :
    ∀ line ∈ lines t cycles, '\n' ∉ line.toList := by
  have hheader : ∀ line ∈ header, '\n' ∉ line.toList := by decide
  have hnodes : ∀ x ∈ t.nodes.toList, '\n' ∉ (nodeLine x.1 x.2).toList := by
    intro x _
    rw [nodeLine_written]
    exact newline_not_mem_written (fixed_nodeSegments x.1 x.2)
  have hedges : ∀ x ∈ t.edges.toList, '\n' ∉ (edgeLine (membership cycles) x.2).toList := by
    intro x _
    rw [edgeLine_written]
    exact newline_not_mem_written (fixed_edgeSegments (membership cycles) x.2)
  simp only [lines_eq, List.forall_mem_append, List.forall_mem_map, List.forall_mem_singleton,
    and_assoc]
  exact ⟨hheader, hnodes, by decide, hedges, by decide⟩

end PatchTyping.DotDrawing

namespace PatchTyping.TypedPatch

open DotDrawing

/-- Splitting a drawing at its line ends gives its lines, and nothing after the last line end. -/
theorem splitOn_drawing (t : TypedPatch) (cycles : List CycleReport) :
    (t.drawing cycles).toList.splitOn '\n' = (lines t cycles).map String.toList ++ [[]] := by
  have hjoin : (t.drawing cycles).toList =
      ((lines t cycles).map String.toList).flatMap (· ++ ['\n']) := by
    simp [drawing, String.toList_join, List.flatMap_map]
  rw [hjoin]
  exact splitOn_lines (List.forall_mem_map.mpr (newline_not_mem_lines t cycles))

/-- A drawing has five lines of header, a line for each node and, after a blank line, one for each edge,
in the order of their names, and a closing line. Reading the line of a node gives its name, then its
label, and reading that of an edge gives the names of the nodes at its ends, then its label; all else on
a line is fixed text. -/
theorem drawing_reads_back (t : TypedPatch) (cycles : List CycleReport) :
    ∃ nodes edges : List (List Char),
      (t.drawing cycles).toList.splitOn '\n' =
        header.map String.toList ++ nodes ++ [[]] ++ edges ++ [['\x7d']] ++ [[]] ∧
      header.length = 5 ∧
      nodes.map readLine = t.nodes.toList.map (fun x => some (nodeSegments x.1 x.2)) ∧
      edges.map readLine = t.edges.toList.map (fun x => some (edgeSegments (membership cycles) x.2)) ∧
      (t.nodes.toList.map (·.1)).Pairwise (· < ·) ∧ (t.edges.toList.map (·.1)).Pairwise (· < ·) := by
  refine ⟨t.nodes.toList.map fun x => (nodeLine x.1 x.2).toList,
    t.edges.toList.map fun x => (edgeLine (membership cycles) x.2).toList, ?_, rfl, ?_, ?_, ?_, ?_⟩
  · rw [splitOn_drawing, lines_eq]
    simp only [List.map_append, List.map_map, List.map_cons, List.map_nil]
    rfl
  · rw [List.map_map]
    apply List.map_congr_left
    intro x _
    rw [Function.comp_apply, nodeLine_written]
    exact readLine_written (fixed_nodeSegments x.1 x.2)
  · rw [List.map_map]
    apply List.map_congr_left
    intro x _
    rw [Function.comp_apply, edgeLine_written]
    exact readLine_written (fixed_edgeSegments (membership cycles) x.2)
  · rw [List.pairwise_map]
    exact OrderedMaps.ascending_toList t.nodes
  · rw [List.pairwise_map]
    exact OrderedMaps.ascending_toList t.edges

end PatchTyping.TypedPatch

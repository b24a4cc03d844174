import Mathlib.Data.List.Nodup
import PatchTyping.Proofs.TextBytes
import PatchTyping.Proofs.TypeGrammar

/-!
# Nothing of a text is lost in scanning

The tokens and the stray characters of a text, put in the order of their starts, lie one after the
other on whole characters, and all that none of them covers is blank. A symbol lies exactly on its sign
and a stray character on itself; a word lies on a word that does not go on after it. The characters that
words consist of are given here by their ranges, apart from the tests that the scanner makes.
-/

namespace PatchTyping

open String (utf8Len)

/-- What the text has at a span, and what follows there. -/
def Span.Reads (text : String) (s : Span) (part after : String) : Prop :=
  ∃ before, text = before ++ part ++ after ∧ s = ⟨before.utf8ByteSize, (before ++ part).utf8ByteSize⟩

namespace TypeText

/-- A letter or an underscore. -/
def WordStart (c : Char) : Prop := ('A' ≤ c ∧ c ≤ 'Z') ∨ ('a' ≤ c ∧ c ≤ 'z') ∨ c = '_'

/-- A letter, an underscore, a digit, a dot or a dash. -/
def WordChar (c : Char) : Prop := WordStart c ∨ ('0' ≤ c ∧ c ≤ '9') ∨ c = '.' ∨ c = '-'

/-- A word begins with a letter or an underscore and goes on with word characters. -/
def Word (s : String) : Prop := ∃ c cs, s.toList = c :: cs ∧ WordStart c ∧ ∀ d ∈ cs, WordChar d

def blankChars : List Char := [' ', '\t', '\r', '\n']

def symbolChars : List Char := [':', '@', '?', '!', '(', ')']

/-- The bytes of the blanks. -/
def blankBytes : List UInt8 := [0x20, 0x09, 0x0d, 0x0a]

/-! ## The tests of the scanner -/

theorem isWordStart_iff {c : Char} : isWordStart c = true ↔ WordStart c := by
  have hupper : c.isUpper = true ↔ 'A' ≤ c ∧ c ≤ 'Z' := decide_eq_true_iff
  have hlower : c.isLower = true ↔ 'a' ≤ c ∧ c ≤ 'z' :=
    Bool.and_eq_true_iff.trans (and_congr decide_eq_true_iff decide_eq_true_iff)
  have halpha : c.isAlpha = true ↔ c.isUpper = true ∨ c.isLower = true := Bool.or_eq_true_iff
  rw [WordStart, ← hupper, ← hlower, ← or_assoc, ← halpha]
  simp [isWordStart]

theorem isWordChar_iff {c : Char} : isWordChar c = true ↔ WordChar c := by
  have hdigit : c.isDigit = true ↔ '0' ≤ c ∧ c ≤ '9' :=
    Bool.and_eq_true_iff.trans (and_congr decide_eq_true_iff decide_eq_true_iff)
  rw [WordChar, ← isWordStart_iff, ← hdigit]
  simp only [isWordChar, isWordStart, Char.isAlphanum, Bool.or_eq_true, beq_iff_eq]
  tauto

theorem isWord_iff {s : String} : isWord s = true ↔ Word s := by
  unfold isWord Word
  cases s.toList with
  | nil => simp
  | cons c cs => simp [isWordStart_iff, isWordChar_iff]

theorem isBlank_iff {c : Char} : isBlank c = true ↔ c ∈ blankChars := by
  simp [isBlank, blankChars, or_assoc]

theorem ofSymbol?_eq_none_iff {c : Char} : Token.ofSymbol? c = none ↔ c ∉ symbolChars := by
  unfold Token.ofSymbol?
  split <;> simp_all [symbolChars]

/-! ## Bytes that no piece covers -/

theorem encode_blank {c : Char} (h : isBlank c = true) :
    ∃ b ∈ blankBytes, String.utf8EncodeChar c = [b] ∧ c.utf8Size = 1 := by
  have hc := isBlank_iff.mp h
  simp only [blankChars, List.mem_cons, List.not_mem_nil, or_false] at hc
  rcases hc with rfl | rfl | rfl | rfl
  · exact ⟨0x20, by decide, rfl, rfl⟩
  · exact ⟨0x09, by decide, rfl, rfl⟩
  · exact ⟨0x0d, by decide, rfl, rfl⟩
  · exact ⟨0x0a, by decide, rfl, rfl⟩

theorem length_encode (cs : List Char) : (cs.flatMap String.utf8EncodeChar).length = utf8Len cs := by
  rw [← utf8Bytes_ofList, length_utf8Bytes, String.utf8ByteSize_ofList]

variable {pos : Nat} {cs : List Char} {ps : List (Placed Piece)}

/-- Between the pieces that are laid out there are only blanks. -/
theorem LaidOut.blank_outside (h : LaidOut pos cs ps) {i : Nat} {b : UInt8}
    (hb : (cs.flatMap String.utf8EncodeChar)[i]? = some b)
    (hout : ∀ p ∈ ps, ¬ (p.span.start ≤ pos + i ∧ pos + i < p.span.stop)) : b ∈ blankBytes := by
  induction h generalizing i with
  | done => simp at hb
  | @blank pos c cs ps hc _ ih =>
    obtain ⟨b', hb', hencode, hsize⟩ := encode_blank hc
    rw [List.flatMap_cons, hencode] at hb
    cases i with
    | zero =>
      cases hb
      exact hb'
    | succ i =>
      apply ih hb
      intro p hp hin
      apply hout p hp
      omega
  | @piece pos q cs ps _ _ _ ih =>
    rw [List.flatMap_append] at hb
    by_cases hi : i < utf8Len q.spelling
    · exact absurd ⟨by simp, by simpa using hi⟩ (hout _ List.mem_cons_self)
    · rw [List.getElem?_append_right (by rw [length_encode]; omega), length_encode] at hb
      apply ih hb
      intro p hp hin
      apply hout p (List.mem_cons_of_mem _ hp)
      omega

/-! ## Tokens and stray characters in order -/

/-- The spans of tokens and stray characters, in the order of their starts. -/
def spansInOrder (found : List (Placed Token)) (errors : List (Placed Char)) : List Span :=
  (found.map (·.span) ++ errors.map (·.span)).mergeSort fun s t => decide (s.start ≤ t.start)

theorem spans_perm (ps : List (Placed Piece)) :
    ((tokens ps).map (·.span) ++ (strays ps).map (·.span)).Perm (ps.map (·.span)) := by
  induction ps with
  | nil => exact .nil
  | cons p ps ih =>
    obtain ⟨piece, s⟩ := p
    cases piece with
    | token t => exact ih.cons s
    | stray c => exact List.perm_middle.trans (ih.cons s)

theorem spelling_ne_nil {p : Piece} (h : p.Proper) : p.spelling ≠ [] := by
  cases p with
  | stray c => exact List.cons_ne_nil _ _
  | token t =>
    cases t with
    | word n =>
      obtain ⟨c, cs, hn, -⟩ := isWord_iff.mp h
      rw [Piece.spelling, Token.spelling, hn]
      exact List.cons_ne_nil _ _
    | _ => exact List.cons_ne_nil _ _

theorem span_nonempty {text : String} {p : Placed Piece} (hp : p ∈ scan text) :
    p.span.start < p.span.stop := by
  obtain ⟨hproper, before, after, -, -, hspan⟩ := (laidOut_scan text).exists_split hp
  obtain ⟨c, cs, hcs⟩ := List.exists_cons_of_ne_nil (spelling_ne_nil hproper)
  have hc := c.utf8Size_pos
  simp only [hspan, hcs, String.utf8Len_append, String.utf8Len_cons]
  omega

theorem starts_increase (text : String) :
    ((scan text).map (·.span)).Pairwise fun s t => s.start < t.start := by
  rw [List.pairwise_map]
  apply (laidOut_scan text).ordered.imp_of_mem
  intro p q hp hq hpq
  have := span_nonempty hp
  omega

theorem spansInOrder_sorted (found : List (Placed Token)) (errors : List (Placed Char)) :
    (spansInOrder found errors).Pairwise fun s t => s.start ≤ t.start := by
  have hsorted : (spansInOrder found errors).Pairwise fun s t => decide (s.start ≤ t.start) = true := by
    apply List.pairwise_mergeSort
    · intro s t u
      simp only [decide_eq_true_eq]
      omega
    · intro s t
      simp only [Bool.or_eq_true, decide_eq_true_eq]
      omega
  exact hsorted.imp of_decide_eq_true

/-- What was told apart into tokens and stray characters comes together again. -/
theorem spansInOrder_scan (text : String) :
    spansInOrder (tokens (scan text)) (strays (scan text)) = (scan text).map (·.span) := by
  have hperm : (spansInOrder (tokens (scan text)) (strays (scan text))).Perm
      ((scan text).map (·.span)) := (List.mergeSort_perm _ _).trans (spans_perm _)
  have hscan := starts_increase text
  have hstarts : (((scan text).map (·.span)).map Span.start).Nodup := by
    rw [List.Nodup, List.pairwise_map]
    exact hscan.imp Nat.ne_of_lt
  refine List.Perm.eq_of_pairwise ?_ (spansInOrder_sorted _ _) (hscan.imp Nat.le_of_lt) hperm
  intro s t hs ht hst hts
  exact List.inj_on_of_nodup_map hstarts (hperm.subset hs) ht (Nat.le_antisymm hst hts)

/-! ## Where the pieces lie -/

theorem reads_of_mem_scan {text : String} {p : Placed Piece} (hp : p ∈ scan text) :
    p.val.Proper ∧ ∃ after, p.span.Reads text (String.ofList p.val.spelling) after ∧
      p.val.EndsBefore after.toList := by
  obtain ⟨hproper, before, after, hsplit, hends, hspan⟩ := (laidOut_scan text).exists_split hp
  refine ⟨hproper, String.ofList after, ⟨String.ofList before, ?_, ?_⟩, by simpa using hends⟩
  · rw [← String.ofList_append, ← String.ofList_append, ← hsplit, String.ofList_toList]
  · rw [hspan, ← String.ofList_append, String.utf8ByteSize_ofList, String.utf8ByteSize_ofList,
      Nat.zero_add, Nat.zero_add]

/-- The tokens and errors of a text account for all of it. -/
structure Partitions (text : String) (found : List (Placed Token)) (errors : List (Placed Char)) :
    Prop where
  increasing : (spansInOrder found errors).Pairwise fun s t => s.stop ≤ t.start
  nonempty : ∀ s ∈ spansInOrder found errors, s.start < s.stop
  within : ∀ s ∈ spansInOrder found errors, s.Within text
  blank_outside : ∀ i b, (utf8Bytes text)[i]? = some b →
    (∀ s ∈ spansInOrder found errors, ¬ (s.start ≤ i ∧ i < s.stop)) → b ∈ blankBytes
  error : ∀ e ∈ errors, (∃ after, e.span.Reads text (String.singleton e.val) after) ∧
    e.val ∉ blankChars ∧ e.val ∉ symbolChars ∧ ¬ WordStart e.val
  symbol : ∀ t ∈ found, (∀ n, t.val ≠ .word n) → ∃ after, t.span.Reads text t.val.display after
  word : ∀ t ∈ found, ∀ n, t.val = .word n → Word n ∧
    ∃ after, t.span.Reads text n after ∧ ∀ c ∈ after.toList.head?, ¬ WordChar c

/-- Scanning takes a text apart without losing, doubling or splitting anything. -/
theorem scan_partitions (text : String) :
    Partitions text (tokens (scan text)) (strays (scan text)) where
  increasing := by
    rw [spansInOrder_scan, List.pairwise_map]
    exact (laidOut_scan text).ordered
  nonempty := by
    rw [spansInOrder_scan, List.forall_mem_map]
    exact fun p => span_nonempty
  within := by
    rw [spansInOrder_scan, List.forall_mem_map]
    exact fun p => within_of_mem_scan
  blank_outside i b hb hout := by
    rw [spansInOrder_scan, List.forall_mem_map] at hout
    rw [utf8Bytes_eq] at hb
    exact (laidOut_scan text).blank_outside hb (by simpa using hout)
  error e he := by
    obtain ⟨⟨hblank, hsymbol, hword⟩, after, hreads, -⟩ := reads_of_mem_scan (mem_strays_iff.mp he)
    refine ⟨⟨after, hreads⟩, fun h => ?_, ofSymbol?_eq_none_iff.mp hsymbol, fun h => ?_⟩
    · rw [isBlank_iff.mpr h] at hblank
      cases hblank
    · rw [isWordStart_iff.mpr h] at hword
      cases hword
  symbol t ht hn := by
    obtain ⟨-, after, hreads, -⟩ := reads_of_mem_scan (mem_tokens_iff.mp ht)
    refine ⟨after, ?_⟩
    cases hval : t.val with
    | word n => exact absurd hval (hn n)
    | _ =>
      rw [hval] at hreads
      exact hreads
  word t ht n hn := by
    obtain ⟨hproper, after, hreads, hends⟩ := reads_of_mem_scan (mem_tokens_iff.mp ht)
    rw [hn] at hproper hreads hends
    refine ⟨isWord_iff.mp hproper, after, ?_, fun c hc h => ?_⟩
    · rwa [Piece.spelling, Token.spelling, String.ofList_toList] at hreads
    · have hno := hends c hc
      rw [isWordChar_iff.mpr h] at hno
      cases hno

end TypeText

end PatchTyping

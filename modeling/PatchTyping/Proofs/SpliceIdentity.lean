import PatchTyping.AdapterIdentity
import PatchTyping.Proofs.TextBytes

/-!
# What the digest of a splice identifies

The names behind a splice are joined by zero characters before they are digested. Two splices have the
same bytes exactly if the same parts stand between the zeros. A name may hold zeros of its own, so the
parts can be shared out among the names in several ways; how many zeros each name holds tells the
splices apart. Names without zeros are taken for no others.
-/

namespace PatchTyping

/-- The names that a splice is derived from. -/
def spliceNames (source target : PortKey) (rule : String) : List String :=
  [source.node, source.port, target.node, target.port, rule]

/-- What stands between the zeros when names are joined by them. -/
def zeroFreeParts (names : List String) : List (List Char) :=
  names.flatMap fun n => n.toList.splitOn '\x00'

/-- How many zeros each of the names holds. -/
def zeroCounts (names : List String) : List Nat := names.map fun n => n.toList.count '\x00'

theorem zeroFreeParts_cons (n : String) (names : List String) :
    zeroFreeParts (n :: names) = n.toList.splitOn '\x00' ++ zeroFreeParts names := rfl

theorem zeroCounts_cons (n : String) (names : List String) :
    zeroCounts (n :: names) = n.toList.count '\x00' :: zeroCounts names := rfl

theorem spliceNames_inj {source target source' target' : PortKey} {rule rule' : String} :
    spliceNames source target rule = spliceNames source' target' rule' ↔
      source = source' ∧ target = target' ∧ rule = rule' := by
  cases source
  cases target
  cases source'
  cases target'
  simp [spliceNames, and_assoc]

section Separators

variable {α : Type} [BEq α]

theorem length_splitOn (x : α) (l : List α) : (l.splitOn x).length = l.count x + 1 := by
  induction l with
  | nil => simp
  | cons a l ih =>
    rw [List.splitOn_cons_eq_if_modifyHead, List.count_cons]
    split
    · simp [ih]
    · simp [ih]

theorem splitOn_inj [LawfulBEq α] {x : α} {l l' : List α} : l.splitOn x = l'.splitOn x ↔ l = l' := by
  refine ⟨fun h => ?_, congrArg _⟩
  have hjoin := congrArg ([x].intercalate ·) h
  simpa only [List.intercalate_splitOn] using hjoin

theorem splitOn_join [LawfulBEq α] (x : α) {ls : List (List α)} (h : ls ≠ []) :
    ([x].intercalate ls).splitOn x = ls.flatMap (·.splitOn x) := by
  induction ls with
  | nil => exact absurd rfl h
  | cons l ls ih =>
    cases ls with
    | nil => simp
    | cons l' ls =>
      rw [List.intercalate_cons_cons, List.append_assoc, List.singleton_append,
        List.splitOn_append_cons_self, ih (List.cons_ne_nil _ _)]
      rfl

end Separators

/-- The names with a zero between any two of them. -/
def zeroJoined (names : List String) : List Char := ['\x00'].intercalate (names.map String.toList)

theorem splitOn_zeroJoined {names : List String} (h : names ≠ []) :
    (zeroJoined names).splitOn '\x00' = zeroFreeParts names := by
  rw [zeroJoined, splitOn_join _ (by simpa using h), List.flatMap_map]
  rfl

theorem zeroJoined_inj {names names' : List String} (h : names ≠ []) (h' : names' ≠ []) :
    zeroJoined names = zeroJoined names' ↔ zeroFreeParts names = zeroFreeParts names' := by
  rw [← splitOn_zeroJoined h, ← splitOn_zeroJoined h', splitOn_inj]

/-- The bytes are those of one text: a label and the names, joined by zeros. -/
theorem spliceBytes_eq (source target : PortKey) (rule : String) :
    spliceBytes source target rule =
      utf8Bytes (String.ofList (zeroJoined ("adapter" :: spliceNames source target rule))) := by
  have hzero : String.utf8EncodeChar '\x00' = [0] := rfl
  simp [spliceBytes, zeroJoined, spliceNames, utf8Bytes_eq, List.intercalate_cons_cons, hzero]

theorem spliceBytes_eq_iff {source target source' target' : PortKey} {rule rule' : String} :
    spliceBytes source target rule = spliceBytes source' target' rule' ↔
      zeroFreeParts (spliceNames source target rule) =
        zeroFreeParts (spliceNames source' target' rule') := by
  rw [spliceBytes_eq, spliceBytes_eq, utf8Bytes_inj, String.ofList_inj,
    zeroJoined_inj (List.cons_ne_nil _ _) (List.cons_ne_nil _ _)]
  exact List.append_right_inj _

/-- Among names with the same parts, the numbers of zeros tell which part belongs to which name. -/
theorem eq_of_zeroCounts {names names' : List String}
    (hparts : zeroFreeParts names = zeroFreeParts names')
    (hcounts : zeroCounts names = zeroCounts names') : names = names' := by
  induction names generalizing names' with
  | nil => exact (List.map_eq_nil_iff.mp hcounts.symm).symm
  | cons n names ih =>
    cases names' with
    | nil => cases hcounts
    | cons n' names' =>
      rw [zeroFreeParts_cons, zeroFreeParts_cons] at hparts
      rw [zeroCounts_cons, zeroCounts_cons] at hcounts
      obtain ⟨hcount, hcounts⟩ := List.cons.inj hcounts
      have hlength : (n.toList.splitOn '\x00').length = (n'.toList.splitOn '\x00').length := by
        rw [length_splitOn, length_splitOn, hcount]
      obtain ⟨hfirst, hrest⟩ := List.append_inj hparts hlength
      rw [String.toList_inj.mp (splitOn_inj.mp hfirst), ih hrest hcounts]

theorem length_zeroFreeParts (names : List String) :
    (zeroFreeParts names).length = (names.flatMap String.toList).count '\x00' + names.length := by
  induction names with
  | nil => rfl
  | cons n names ih =>
    rw [zeroFreeParts_cons, List.length_append, length_splitOn, ih, List.flatMap_cons,
      List.count_append, List.length_cons]
    omega

theorem count_zero_eq_zero_iff {names : List String} :
    (names.flatMap String.toList).count '\x00' = 0 ↔ ∀ n ∈ names, '\x00' ∉ n.toList := by
  simp [List.count_eq_zero]

theorem zeroFreeParts_of_zeroFree {names : List String} (h : ∀ n ∈ names, '\x00' ∉ n.toList) :
    zeroFreeParts names = names.map String.toList := by
  induction names with
  | nil => rfl
  | cons n names ih =>
    obtain ⟨hn, hnames⟩ := List.forall_mem_cons.mp h
    rw [zeroFreeParts_cons, List.splitOn_eq_singleton hn, ih hnames]
    rfl

/-- Names without zeros share their parts with no other names, if these are as many. -/
theorem eq_of_zeroFree {names names' : List String} (hlength : names.length = names'.length)
    (hparts : zeroFreeParts names = zeroFreeParts names')
    (hfree : ∀ n ∈ names, '\x00' ∉ n.toList) : names = names' := by
  have hcount := count_zero_eq_zero_iff.mpr hfree
  have hcount' : (names'.flatMap String.toList).count '\x00' = 0 := by
    have hparts' := congrArg List.length hparts
    rw [length_zeroFreeParts, length_zeroFreeParts] at hparts'
    omega
  rw [zeroFreeParts_of_zeroFree hfree,
    zeroFreeParts_of_zeroFree (count_zero_eq_zero_iff.mp hcount')] at hparts
  exact (List.map_inj_right fun _ _ => String.toList_inj.mp).mp hparts

/-- Two splices have the same bytes exactly if the same parts stand between the zeros of their names.
They are then the same splice exactly if each name of the one holds as many zeros as that of the other,
and they are if the names of one hold none. -/
theorem splice_identified (source target source' target' : PortKey) (rule rule' : String) :
    (spliceBytes source target rule = spliceBytes source' target' rule' ↔
      zeroFreeParts (spliceNames source target rule) =
        zeroFreeParts (spliceNames source' target' rule')) ∧
    (spliceBytes source target rule = spliceBytes source' target' rule' →
      ((source = source' ∧ target = target' ∧ rule = rule') ↔
        zeroCounts (spliceNames source target rule) =
          zeroCounts (spliceNames source' target' rule')) ∧
      ((∀ n ∈ spliceNames source target rule, '\x00' ∉ n.toList) →
        source = source' ∧ target = target' ∧ rule = rule')) := by
  refine ⟨spliceBytes_eq_iff, fun hbytes => ?_⟩
  have hparts := spliceBytes_eq_iff.mp hbytes
  refine ⟨⟨?_, fun hcounts => ?_⟩, fun hfree => ?_⟩
  · rintro ⟨rfl, rfl, rfl⟩
    rfl
  · exact spliceNames_inj.mp (eq_of_zeroCounts hparts hcounts)
  · exact spliceNames_inj.mp (eq_of_zeroFree rfl hparts hfree)

/-- Two edges from different phasors to different sines, whose ends are read from texts. One rule gives
both the same adapter name. -/
theorem phasors_confused :
    let source : PortKey := ⟨"p", "phase"⟩
    let target : PortKey := ⟨"x\x00phase\x00y", "x"⟩
    let source' : PortKey := ⟨"p\x00phase\x00x", "phase"⟩
    let target' : PortKey := ⟨"y", "x"⟩
    PortKey.parse? "p.phase" = some source ∧ PortKey.parse? "x\x00phase\x00y.x" = some target ∧
      PortKey.parse? "p\x00phase\x00x.phase" = some source' ∧ PortKey.parse? "y.x" = some target' ∧
      spliceBytes source target "PhaseToRadians" = spliceBytes source' target' "PhaseToRadians" ∧
      adapterNodeId source target "PhaseToRadians" = adapterNodeId source' target' "PhaseToRadians" ∧
      ¬ (source = source' ∧ target = target' ∧ "PhaseToRadians" = "PhaseToRadians") := by
  intro source target source' target'
  obtain ⟨hiff, hsame⟩ :=
    splice_identified source target source' target' "PhaseToRadians" "PhaseToRadians"
  have hbytes := hiff.mpr (by decide)
  have hcounts : zeroCounts (spliceNames source target "PhaseToRadians") ≠
      zeroCounts (spliceNames source' target' "PhaseToRadians") := by decide
  have hname : adapterNodeId source target "PhaseToRadians" =
      adapterNodeId source' target' "PhaseToRadians" := by
    rw [adapterNodeId, hbytes, adapterNodeId]
  exact ⟨by decide, by decide, by decide, by decide, hbytes, hname,
    fun h => hcounts ((hsame hbytes).1.mp h)⟩

end PatchTyping

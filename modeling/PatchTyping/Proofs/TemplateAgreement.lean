import PatchTyping.Proofs.QuietRounds

/-!
# Templates that equate ports

A template may demand that ports of a node agree on an axis. In a patch that is ready they always agree
on the cardinality. On payload and unit they agree unless two neighbours in the list of ports are
declared with different values: of two known sides nothing is demanded, and nothing reports them.
-/

namespace PatchTyping

open AxisInference CardinalityInference

/-- What can stand on an axis. -/
abbrev AxisName.Value : AxisName → Type
  | payload => Payload
  | unit => UnitTag
  | cardinality => Cardinality

/-- The value of a type on an axis, if it is known. -/
def PortType.value? (t : PortType) : (which : AxisName) → Option which.Value
  | .payload => t.payload.value?
  | .unit => t.unit.value?
  | .cardinality => t.cardinality.value?

/-- The value that a port has on an axis. -/
def TypedPatch.value? (t : TypedPatch) (which : AxisName) (k : PortKey) : Option which.Value :=
  (t.portType? k).bind (·.value? which)

/-- The value that a port declares on an axis, by its block or an override. -/
def PortTable.declared? (ports : PortTable) (which : AxisName) (k : PortKey) : Option which.Value :=
  ports[k]?.bind (·.type.value? which)

/-- Two ports declare values on an axis, and not the same. -/
def PortTable.Clash (ports : PortTable) (which : AxisName) (a b : PortKey) : Prop :=
  ∃ v w, ports.declared? which a = some v ∧ ports.declared? which b = some w ∧ v ≠ w

section Lists

variable {α β : Type}

theorem forall_eq_iff_consecutive {f : α → β} {l : List α} :
    (∀ a ∈ l, ∀ b ∈ l, f a = f b) ↔ ∀ x ∈ consecutive l, f x.1 = f x.2 := by
  constructor
  · intro h x hx
    exact h _ (mem_of_mem_consecutive hx).1 _ (mem_of_mem_consecutive hx).2
  · intro h
    induction l with
    | nil => simp
    | cons a l ih =>
      cases l with
      | nil => simp
      | cons b l =>
        have hrest := ih fun x hx => h x (List.mem_cons_of_mem _ hx)
        have hab : f a = f b := h (a, b) List.mem_cons_self
        have hsecond : ∀ c ∈ a :: b :: l, f c = f b := by
          intro c hc
          rcases List.mem_cons.mp hc with rfl | hc
          · exact hab
          · exact hrest c hc b List.mem_cons_self
        intro c hc d hd
        rw [hsecond c hc, hsecond d hd]

/-- If an equation is enforced wherever a variable takes part, only two known sides can differ. -/
theorem Axis.under_eq_iff {x y : Axis α} {τ : VarKey → α} {a b : NodeId}
    (h : x.isVar = true ∨ y.isVar = true → x.under τ a = y.under τ b) :
    x.under τ a = y.under τ b ↔ ¬ ∃ v w, x.value? = some v ∧ y.value? = some w ∧ v ≠ w := by
  cases x with
  | inst v =>
    cases y with
    | inst w => simp [Axis.under, Axis.value?]
    | var w => simp [h (.inr rfl), Axis.value?]
  | var v => simp [h (.inl rfl), Axis.value?]

end Lists

namespace Round

variable {catalog : Catalog} {g : Patch} {id : NodeId} {n : Node} {b : Block}
  (hi : g.Instantiates catalog id n b)
include hi

private theorem neighbours_related {α : Type} {which : AxisName} {axis : PortType → Axis α}
    {τ : VarKey → α} {pairs : List EdgePair}
    (hτ : Models (g.axisConstraints catalog (g.portTable catalog) pairs which axis) τ)
    {ps : List String} (ht : .equal which ps ∈ b.templates) {x : String × String}
    (hx : x ∈ consecutive ps) {i j : PortInfo}
    (hinfo : (g.portTable catalog)[PortKey.mk id x.1]? = some i)
    (hinfo' : (g.portTable catalog)[PortKey.mk id x.2]? = some j) :
    (axis i.type).isVar = true ∨ (axis j.type).isVar = true →
      (axis i.type).under τ id = (axis j.type).under τ id := by
  have hholds : ∀ c, (g.portTable catalog).relate axis ⟨id, x.1⟩ ⟨id, x.2⟩ (.template id) = some c →
      c.Holds τ := by
    intro c hc
    apply hτ
    exact Patch.mem_axisConstraints_iff.mpr
      (.inl ⟨id, n, b, hi, _, ht, PortTable.mem_templateAxis_iff.mpr ⟨ps, rfl, x, hx, hc⟩⟩)
  exact (PortTable.relate_holds_iff hinfo hinfo').mp hholds

variable (hc : catalog.Built)
include hc

theorem exists_info_of_template {t : Template} (ht : t ∈ b.templates) {p : String}
    (hp : p ∈ t.ports) : ∃ info, (g.portTable catalog)[PortKey.mk id p]? = some info :=
  Option.isSome_iff_exists.mp
    (Std.ExtTreeMap.mem_iff_isSome_getElem?.mp (Patch.mem_portTable_of_template hc hi ht hp))

variable (h : (ofPatch catalog g).Clean)
include h

/-- Two neighbours in a template agree after a round without errors, unless their declarations clash on
payload or unit. -/
theorem Clean.neighbours_agree_iff {which : AxisName} {ps : List String}
    (ht : .equal which ps ∈ b.templates) {x : String × String} (hx : x ∈ consecutive ps) :
    ((ofPatch catalog g).typing[PortKey.mk id x.1]?.bind (·.value? which) =
        (ofPatch catalog g).typing[PortKey.mk id x.2]?.bind (·.value? which)) ↔
      which = .cardinality ∨ ¬ (g.portTable catalog).Clash which ⟨id, x.1⟩ ⟨id, x.2⟩ := by
  obtain ⟨i, hinfo⟩ := exists_info_of_template hi hc ht (mem_of_mem_consecutive hx).1
  obtain ⟨j, hinfo'⟩ := exists_info_of_template hi hc ht (mem_of_mem_consecutive hx).2
  obtain ⟨s, hs, hspay, hsunit, hscard, -⟩ := h.typing_eq hc hinfo
  obtain ⟨t, ht', htpay, htunit, htcard, -⟩ := h.typing_eq hc hinfo'
  simp only [PortTable.Clash, PortTable.declared?, hinfo, hinfo', hs, ht', Option.bind_some]
  cases which with
  | payload =>
    have hrel := Axis.under_eq_iff (neighbours_related hi h.payloads_models ht hx hinfo hinfo')
    change some s.payload = some t.payload ↔ _ ∨ ¬ ∃ v w, i.type.payload.value? = some v ∧
      j.type.payload.value? = some w ∧ v ≠ w
    rw [← hrel, hspay, htpay]
    simp
  | unit =>
    have hrel := Axis.under_eq_iff (neighbours_related hi h.units_models ht hx hinfo hinfo')
    change some s.unit = some t.unit ↔ _ ∨ ¬ ∃ v w, i.type.unit.value? = some v ∧
      j.type.unit.value? = some w ∧ v ≠ w
    rw [← hrel, hsunit, htunit]
    simp
  | cardinality =>
    have hequal : .equal ⟨id, x.1⟩ ⟨id, x.2⟩ (.template id) ∈ (g.constraints catalog).cardinality := by
      refine Patch.mem_cardinality_iff.mpr (.inl ⟨id, n, b, hi, .inr ⟨_, ht, ?_⟩⟩)
      simp only [PortTable.templateCardinality, consecutive_map]
      exact List.mem_map.mpr ⟨_, List.mem_map.mpr ⟨x, hx, rfl⟩, rfl⟩
    have hmem : PortKey.mk id x.1 ∈ g.portTable catalog :=
      Std.ExtTreeMap.mem_iff_isSome_getElem?.mpr (by simp [hinfo])
    have heq := (h.solved hc).value?_eq hc hmem
      (.rel _ _ (ConstraintSet.equal_mem_demands_iff.mpr ⟨_, hequal⟩))
    rw [hscard, htcard] at heq
    exact ⟨fun _ => .inl rfl, fun _ => heq⟩

theorem Clean.value?_isSome {t : Template} (ht : t ∈ b.templates) {p : String} (hp : p ∈ t.ports)
    (which : AxisName) :
    ((ofPatch catalog g).typing[PortKey.mk id p]?.bind (·.value? which)).isSome = true := by
  obtain ⟨i, hinfo⟩ := exists_info_of_template hi hc ht hp
  obtain ⟨s, hs, -, -, -, -⟩ := h.typing_eq hc hinfo
  rw [hs]
  cases which <;> rfl

end Round

namespace Patch

/-- In a patch that is ready, the ports that a template equates all have a value. They have the same one
exactly if the axis is the cardinality or no two neighbours clash in what they declare. -/
theorem normalize_template_agrees_iff (g : Patch) {catalog : Catalog} (hc : catalog.Built)
    (options : NormalizationOptions) (hready : (g.normalize catalog options).ready = true)
    {id : NodeId} {n : Node} {b : Block}
    (hi : (g.normalize catalog options).patch.Instantiates catalog id n b)
    {which : AxisName} {ps : List String} (ht : .equal which ps ∈ b.templates) :
    let r := g.normalize catalog options
    (∀ p ∈ ps, (r.typed.value? which ⟨id, p⟩).isSome = true) ∧
      ((∀ p ∈ ps, ∀ q ∈ ps, r.typed.value? which ⟨id, p⟩ = r.typed.value? which ⟨id, q⟩) ↔
        which = .cardinality ∨
          ∀ x ∈ consecutive ps, ¬ r.constraints.ports.Clash which ⟨id, x.1⟩ ⟨id, x.2⟩) := by
  intro r
  have hclean := clean_of_ready g catalog options hready
  have hports : r.constraints.ports = r.patch.portTable catalog :=
    congrArg ConstraintSet.ports (constraints_normalize g catalog options)
  have hvalue : ∀ p, r.typed.value? which ⟨id, p⟩ =
      (Round.ofPatch catalog r.patch).typing[PortKey.mk id p]?.bind (·.value? which) := by
    intro p
    rw [TypedPatch.value?, portType?_normalize]
  simp only [hvalue, hports]
  refine ⟨fun p hp => hclean.value?_isSome hi hc ht hp which, ?_⟩
  rw [forall_eq_iff_consecutive (f := fun p =>
    (Round.ofPatch catalog r.patch).typing[PortKey.mk id p]?.bind (·.value? which))]
  constructor
  · intro hagree
    by_cases hcard : which = .cardinality
    · exact .inl hcard
    · right
      intro x hx
      exact ((hclean.neighbours_agree_iff hi hc ht hx).mp (hagree x hx)).resolve_left hcard
  · intro h x hx
    apply (hclean.neighbours_agree_iff hi hc ht hx).mpr
    exact h.imp_right fun hnone => hnone x hx

/-- A node whose two ports are overridden with different payloads. -/
def mixedPair : Patch where
  nodes := (∅ : Std.ExtTreeMap NodeId Node).insert "m" {
    block := "Pair"
    overrides := (∅ : Std.ExtTreeMap String PortType).insert "left"
        ⟨.inst .float, .inst .ms, .inst .one, .continuous⟩
      |>.insert "right" ⟨.inst .int, .inst .ms, .inst .one, .continuous⟩ }
  edges := ∅

/-- The one block `Pair`, whose template equates the payloads of its ports. -/
def pairCatalog : Catalog := (Catalog.empty.insertAll [
  { name := "Pair"
    outputs := [⟨"left", ⟨.var "L", .inst .ms, .inst .one, .continuous⟩⟩,
      ⟨"right", ⟨.var "R", .inst .ms, .inst .one, .continuous⟩⟩]
    templates := [.equal .payload ["left", "right"]] }]).1

/-- The patch is ready, although its ports do not have the payload in common that the template wants. -/
theorem mixedPair_disagrees :
    let r := mixedPair.normalize pairCatalog {}
    pairCatalog.Built ∧ r.ready = true ∧
      ∃ n b, r.patch.Instantiates pairCatalog "m" n b ∧
        .equal .payload ["left", "right"] ∈ b.templates ∧
        ¬ ∀ p ∈ ["left", "right"], ∀ q ∈ ["left", "right"],
          r.typed.value? .payload ⟨"m", p⟩ = r.typed.value? .payload ⟨"m", q⟩ := by
  intro r
  have hbuilt : pairCatalog.Built := Catalog.Built.empty.insertAll _
  have hready : r.ready = true := by decide +kernel
  have hnode : (r.patch.nodes["m"]?.map Node.block) = some "Pair" := by decide +kernel
  have hblock : ((pairCatalog.lookup? "Pair").map Block.templates) =
      some [.equal .payload ["left", "right"]] := by decide +kernel
  obtain ⟨n, hn, hname⟩ := Option.map_eq_some_iff.mp hnode
  obtain ⟨b, hb, htemplates⟩ := Option.map_eq_some_iff.mp hblock
  have hi : r.patch.Instantiates pairCatalog "m" n b := ⟨hn, hname ▸ hb⟩
  have ht : .equal .payload ["left", "right"] ∈ b.templates := by simp [htemplates]
  refine ⟨hbuilt, hready, n, b, hi, ht, fun hagree => ?_⟩
  rcases (normalize_template_agrees_iff mixedPair hbuilt {} hready hi ht).2.mp hagree with h | h
  · cases h
  · have hleft : r.constraints.ports.declared? .payload ⟨"m", "left"⟩ = some Payload.float := by
      decide +kernel
    have hright : r.constraints.ports.declared? .payload ⟨"m", "right"⟩ = some Payload.int := by
      decide +kernel
    exact h ("left", "right") List.mem_cons_self ⟨.float, .int, hleft, hright, by decide⟩

end Patch

end PatchTyping

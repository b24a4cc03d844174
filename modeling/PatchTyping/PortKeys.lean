import Std.Data.ExtTreeMap
import Std.Data.ExtTreeSet

/-!
# Names of nodes, edges, ports and variables

Node and edge names are chosen by the author of a patch. A port is named by its node and the name its
block declares; a type variable is named by its node as well, so equal variable names of two nodes are
unrelated. Both kinds of pair are ordered by the node first.
-/

namespace PatchTyping

abbrev NodeId := String

abbrev EdgeId := String

structure PortKey where
  node : NodeId
  port : String
deriving DecidableEq, Repr

structure VarKey where
  node : NodeId
  var : String
deriving DecidableEq, Repr

namespace PortKey

def text (k : PortKey) : String := k.node ++ "." ++ k.port

/-- Split at the last dot, which belongs to neither side. -/
def splitAtLastDot : List Char → Option (List Char × List Char)
  | [] => none
  | c :: cs =>
    match splitAtLastDot cs with
    | some (front, back) => some (c :: front, back)
    | none => if c = '.' then some ([], cs) else none

/-- Read `node.port`. The node name may contain dots; neither name is empty. -/
def parse? (text : String) : Option PortKey :=
  match splitAtLastDot text.toList with
  | some (node, port) =>
    if node.isEmpty || port.isEmpty then none
    else some ⟨String.ofList node, String.ofList port⟩
  | none => none

def refusal (text : String) : String :=
  "port reference '" ++ text ++ "' is not of the form node.port"

instance : Ord PortKey := ⟨fun a b => (compare a.node b.node).then (compare a.port b.port)⟩

end PortKey

namespace VarKey

def text (k : VarKey) : String := k.node ++ "?" ++ k.var

instance : Ord VarKey := ⟨fun a b => (compare a.node b.node).then (compare a.var b.var)⟩

end VarKey

private theorem pairOrder_self (a b : String) : (compare a a).then (compare b b) = .eq := by
  rw [Std.ReflOrd.compare_self, Std.ReflOrd.compare_self]; rfl

private theorem pairOrder_swap (a b c d : String) :
    (compare a c).then (compare b d) = ((compare c a).then (compare d b)).swap := by
  rw [Ordering.swap_then, ← Std.OrientedOrd.eq_swap, ← Std.OrientedOrd.eq_swap]

private theorem pairOrder_trans {a b c d e f : String}
    (h₁ : ((compare a c).then (compare b d)).isLE) (h₂ : ((compare c e).then (compare d f)).isLE) :
    ((compare a e).then (compare b f)).isLE := by
  have h : Std.TransCmp (compareLex (compareOn (@Prod.fst String String)) (compareOn Prod.snd)) :=
    inferInstance
  exact @Std.TransCmp.isLE_trans _ _ h (a, b) (c, d) (e, f) h₁ h₂

private theorem pairOrder_eq {a b c d : String} (h : (compare a c).then (compare b d) = .eq) :
    a = c ∧ b = d := by
  rw [Ordering.then_eq_eq] at h
  exact ⟨Std.LawfulEqOrd.eq_of_compare h.1, Std.LawfulEqOrd.eq_of_compare h.2⟩

instance : Std.TransOrd PortKey where
  eq_swap := pairOrder_swap _ _ _ _
  isLE_trans := pairOrder_trans

instance : Std.LawfulEqOrd PortKey where
  compare_self {_} := pairOrder_self _ _
  eq_of_compare {a b} h := by
    obtain ⟨h₁, h₂⟩ := pairOrder_eq h
    cases a; cases b; simp_all

instance : Std.TransOrd VarKey where
  eq_swap := pairOrder_swap _ _ _ _
  isLE_trans := pairOrder_trans

instance : Std.LawfulEqOrd VarKey where
  compare_self {_} := pairOrder_self _ _
  eq_of_compare {a b} h := by
    obtain ⟨h₁, h₂⟩ := pairOrder_eq h
    cases a; cases b; simp_all

end PatchTyping

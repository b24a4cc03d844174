import Std.Data.ExtTreeMap

/-!
# Partitions with values

Keys are registered, merged into classes, and given values; a class holds at most one value. Each key
has a slot, numbered by first registration, and each slot a parent, so that the slots of a class form a
tree whose root speaks for the class and holds its value. Merging puts the root of lower rank below the
other. Looking up a root redirects every slot on the way straight to it, also where only a value or the
list of classes is asked for. Neither a merge nor an assignment that would give a class two values changes
anything but registrations.
-/

namespace PatchTyping

/-- Two values that one class cannot hold together. -/
structure Conflict (V : Type) where
  existing : V
  incoming : V
deriving DecidableEq, Repr

/-- A slot. A root is its own parent; only a root's value counts. -/
structure PartitionCell (V : Type) where
  parent : Nat
  rank : Nat := 0
  value : Option V := none
deriving DecidableEq

structure ValuedPartition (K V : Type) [Ord K] where
  slots : Std.ExtTreeMap K Nat := ∅
  cells : Array (PartitionCell V) := #[]

namespace ValuedPartition

variable {K V : Type} [Ord K]

def empty : ValuedPartition K V := {}

def parent (p : ValuedPartition K V) (x : Nat) : Nat :=
  match p.cells[x]? with
  | some c => c.parent
  | none => x

def rank (p : ValuedPartition K V) (x : Nat) : Nat :=
  match p.cells[x]? with
  | some c => c.rank
  | none => 0

def held (p : ValuedPartition K V) (x : Nat) : Option V := p.cells[x]?.bind (·.value)

/-- Follow parents for at most the given number of steps. -/
def climb (p : ValuedPartition K V) : Nat → Nat → Nat
  | 0, x => x
  | n + 1, x => if p.parent x = x then x else p.climb n (p.parent x)

/-- The root above a slot. No path is longer than the number of slots. -/
def rootAbove (p : ValuedPartition K V) (x : Nat) : Nat := p.climb p.cells.size x

def mapCell (p : ValuedPartition K V) (x : Nat) (f : PartitionCell V → PartitionCell V) :
    ValuedPartition K V :=
  { p with cells := p.cells.modify x f }

/-- Redirect every slot on the way from `x` up to `root`. -/
def compress (p : ValuedPartition K V) (root : Nat) : Nat → Nat → ValuedPartition K V
  | 0, _ => p
  | n + 1, x =>
    if x = root then p
    else (p.mapCell x fun c => { c with parent := root }).compress root n (p.parent x)

/-- The root above a slot. Every slot on the way is sent straight to it. -/
def lookUp (p : ValuedPartition K V) (x : Nat) : Nat × ValuedPartition K V :=
  (p.rootAbove x, p.compress (p.rootAbove x) p.cells.size x)

/-- Keys by their roots, in the order in which the roots turn up. A class goes by its first key. -/
def byRoot (rooted : List (K × Nat)) : List (K × List K) :=
  (rooted.map (·.2)).eraseDups.filterMap fun r =>
    match rooted.filterMap fun (k, s) => if s = r then some k else none with
    | [] => none
    | k :: ks => some (k, k :: ks)

variable [Std.TransOrd K]

def slot? (p : ValuedPartition K V) (k : K) : Option Nat := p.slots[k]?

/-- Give a key a slot of its own unless it has one. -/
def register (p : ValuedPartition K V) (k : K) : ValuedPartition K V :=
  match p.slot? k with
  | some _ => p
  | none =>
    ⟨p.slots.insert k p.cells.size, p.cells.push { parent := p.cells.size }⟩

/-- The slot that speaks for the class of a key, which is registered if need be. -/
def root (p : ValuedPartition K V) (k : K) : Nat × ValuedPartition K V :=
  let p := p.register k
  match p.slot? k with
  | some x => p.lookUp x
  | none => (0, p)

/-- The value of a key's class. A key that is not registered has none and stays so. -/
def value (p : ValuedPartition K V) (k : K) : Option V × ValuedPartition K V :=
  match p.slot? k with
  | some x =>
    let (r, p) := p.lookUp x
    (p.held r, p)
  | none => (none, p)

def roots : List K → ValuedPartition K V → List (K × Nat) × ValuedPartition K V
  | [], p => ([], p)
  | k :: ks, p =>
    let (r, p) := p.root k
    let (rest, p) := roots ks p
    ((k, r) :: rest, p)

/-- The classes, each under its smallest member and with its members in order. -/
def listClasses (p : ValuedPartition K V) : List (K × List K) × ValuedPartition K V :=
  let (rooted, p) := roots p.slots.keys p
  (byRoot rooted, p)

/-! What a look-up tells, without the redirecting. -/

/-- The slot that speaks for the class of a key, if the key is registered. -/
def root? (p : ValuedPartition K V) (k : K) : Option Nat := (p.slot? k).map p.rootAbove

def value? (p : ValuedPartition K V) (k : K) : Option V := (p.root? k).bind p.held

def classes (p : ValuedPartition K V) : List (K × List K) :=
  byRoot (p.slots.toList.map fun (k, x) => (k, p.rootAbove x))

variable [DecidableEq V]

/-- The value of a class merged from two, or the reason why they cannot be. -/
def mergedValue : Option V → Option V → Except (Conflict V) (Option V)
  | some a, some b => if a = b then .ok (some a) else .error ⟨a, b⟩
  | some a, none => .ok (some a)
  | none, b => .ok b

/-- Put one root below another, which takes over the value. -/
def link (p : ValuedPartition K V) (child parent : Nat) (value : Option V) (rank : Nat) :
    ValuedPartition K V :=
  (p.mapCell child fun c => { c with parent, value := none }).mapCell parent
    fun c => { c with rank, value }

/-- Merge two roots by rank; of equal ranks the first root stays. -/
def linkRoots (p : ValuedPartition K V) (a b : Nat) (value : Option V) : ValuedPartition K V :=
  if p.rank a < p.rank b then p.link a b value (p.rank b)
  else p.link b a value (if p.rank a = p.rank b then p.rank a + 1 else p.rank a)

/-- Merge the classes of two keys, unless they hold different values. -/
def union (p : ValuedPartition K V) (a b : K) : Option (Conflict V) × ValuedPartition K V :=
  let (ra, p) := p.root a
  let (rb, p) := p.root b
  if ra = rb then (none, p)
  else
    match mergedValue (p.held ra) (p.held rb) with
    | .error conflict => (some conflict, p)
    | .ok value => (none, p.linkRoots ra rb value)

/-- Give the class of a key a value, unless it holds a different one. -/
def assign (p : ValuedPartition K V) (k : K) (v : V) : Option (Conflict V) × ValuedPartition K V :=
  let (r, p) := p.root k
  match p.held r with
  | some w => (if w = v then none else some ⟨w, v⟩, p)
  | none => (none, p.mapCell r fun c => { c with value := some v })

end ValuedPartition

end PatchTyping

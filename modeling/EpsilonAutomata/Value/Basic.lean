import EpsilonAutomata.Number.Quantity

/-!
# Values

The things that name states and symbols: scalars, ordered and unordered collections of values, the
mark of the empty move, and named markers. Equality looks at what a value stands for: numbers are
equal when their quantities are, sets when they have the same members, and a marker equals only
itself. It is an equivalence, and finer than it `=` tells `1`, `true` and `1.0` apart.

There are no values of derived kinds, such as a tuple whose parts have names, or a number or a text
with a name of its own. Such a value would equal the plain one, but be written in another way, and as a
label it would take another place, since labels of different kinds are ordered by the names of their
kinds. What is said of labels in order (the moves of an automaton, its documents, the words it accepts)
is said of the kinds below.
-/

namespace EpsilonAutomata

/-- A value. Lists, sets and mappings may be passed about but cannot be members of a set. -/
inductive Value where
  | null
  | bool (b : Bool)
  | int (i : Int)
  | double (x : Double)
  | text (s : String)
  | tuple (items : List Value)
  | list (items : List Value)
  | set (items : List Value)
  | frozenSet (items : List Value)
  | mapping (entries : List (Value × Value))
  | epsilon
  | marker (id : Nat) (name : String)
  deriving Inhabited

/-- What a value without parts stands for. -/
inductive Scalar where
  | null
  | number (q : Quantity)
  | text (s : String)
  | epsilon
  | marker (id : Nat)
  deriving DecidableEq

namespace Value

/-- What the value stands for, if it has no parts. -/
def scalar? : Value → Option Scalar
  | null => some .null
  | bool b => some (.number (.ofInt (if b then 1 else 0)))
  | int i => some (.number (.ofInt i))
  | double x => some (.number x.quantity)
  | text s => some (.text s)
  | epsilon => some .epsilon
  | marker id _ => some (.marker id)
  | _ => none

def members? : Value → Option (List Value)
  | set xs => some xs
  | frozenSet xs => some xs
  | _ => none

def isEpsilon : Value → Bool
  | epsilon => true
  | _ => false

/-- Both values are without parts and stand for one thing. -/
def sameScalar (a b : Value) : Bool :=
  match a.scalar?, b.scalar? with
  | some x, some y => decide (x = y)
  | _, _ => false

mutual

/-- Equality of what two values stand for. -/
def same : Value → Value → Bool
  | int i, int j => decide (i = j)
  | text s, text t => s == t
  | tuple xs, tuple ys => sameItems xs ys
  | list xs, list ys => sameItems xs ys
  | set xs, b => b.members?.any fun ys => within xs ys && ys.all (among xs)
  | frozenSet xs, b => b.members?.any fun ys => within xs ys && ys.all (among xs)
  | mapping xs, mapping ys => entriesWithin xs ys && ys.all (entryAmong xs)
  | a, b => sameScalar a b

def sameItems : List Value → List Value → Bool
  | [], [] => true
  | x :: xs, y :: ys => same x y && sameItems xs ys
  | _, _ => false

/-- Every item of the first list equals one of the second. -/
def within : List Value → List Value → Bool
  | [], _ => true
  | x :: xs, ys => ys.any (same x) && within xs ys

/-- The value equals one of the list. -/
def among : List Value → Value → Bool
  | [], _ => false
  | x :: xs, y => same x y || among xs y

/-- Every entry of the first list equals one of the second, key and value. -/
def entriesWithin : List (Value × Value) → List (Value × Value) → Bool
  | [], _ => true
  | (k, v) :: xs, ys => ys.any (fun e => same k e.1 && same v e.2) && entriesWithin xs ys

/-- The entry equals one of the list, key and value. -/
def entryAmong : List (Value × Value) → Value × Value → Bool
  | [], _ => false
  | (k, v) :: xs, e => (same k e.1 && same v e.2) || entryAmong xs e

end

instance : BEq Value := ⟨same⟩

mutual

/-- The value can be a member of a set: it is no list, set or mapping, nor a tuple with one. -/
def hashable : Value → Bool
  | tuple xs => allHashable xs
  | list _ => false
  | set _ => false
  | mapping _ => false
  | _ => true

def allHashable : List Value → Bool
  | [] => true
  | x :: xs => hashable x && allHashable xs

end

end Value

end EpsilonAutomata

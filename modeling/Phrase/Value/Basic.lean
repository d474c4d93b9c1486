import Phrase.Source

/-!
# Values

Grammars are data, so the values they build are of one dynamic type.  `Value.compare` is a
linear order on them; sets and maps keep their contents sorted by it.
-/

namespace Phrase

/-- What parsing builds. -/
inductive Value where
  /-- Stands for the output of a rule that failed and was recovered from. -/
  | default
  | unit
  | int (n : Int)
  | pos (position : Nat)
  | count (n : Nat)
  | sym (name : String)
  | str (s : String)
  | lexeme (range : Span)
  | tuple (items : List Value)
  | list (items : List Value)
  | set (items : List Value)
  | map (entries : List (Value × Value))
  deriving Inhabited

namespace Value

/-- The place of a value's form in the order of forms. -/
def rank : Value → Nat
  | .default => 0
  | .unit => 1
  | .int _ => 2
  | .pos _ => 3
  | .count _ => 4
  | .sym _ => 5
  | .str _ => 6
  | .lexeme _ => 7
  | .tuple _ => 8
  | .list _ => 9
  | .set _ => 10
  | .map _ => 11

mutual

/-- Values of different forms are ordered by form, and those of one form by content. -/
def compare : Value → Value → Ordering
  | .int a, .int b => Ord.compare a b
  | .pos a, .pos b => Ord.compare a b
  | .count a, .count b => Ord.compare a b
  | .sym a, .sym b => Ord.compare a b
  | .str a, .str b => Ord.compare a b
  | .lexeme a, .lexeme b => (Ord.compare a.start b.start).then (Ord.compare a.stop b.stop)
  | .tuple as, .tuple bs => compareItems as bs
  | .list as, .list bs => compareItems as bs
  | .set as, .set bs => compareItems as bs
  | .map as, .map bs => compareEntries as bs
  | a, b => Ord.compare a.rank b.rank

/-- Lists are ordered by their first difference. -/
def compareItems : List Value → List Value → Ordering
  | [], [] => .eq
  | [], _ :: _ => .lt
  | _ :: _, [] => .gt
  | a :: as, b :: bs => (compare a b).then (compareItems as bs)

/-- Entries are ordered by key, then by value. -/
def compareEntries : List (Value × Value) → List (Value × Value) → Ordering
  | [], [] => .eq
  | [], _ :: _ => .lt
  | _ :: _, [] => .gt
  | (k, v) :: as, (l, w) :: bs =>
    ((compare k l).then (compare v w)).then (compareEntries as bs)

end

/-- The text in a value, for those that hold one. -/
def text? : Value → Option String
  | .sym s => some s
  | .str s => some s
  | _ => none

end Value

end Phrase
